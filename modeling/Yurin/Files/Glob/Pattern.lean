import Yurin.Files.Path
import Yurin.Text.Ascii

/-!
# The text of glob patterns

Where a pattern can be taken apart: at the last slash before its first special character, which
gives the directory where a search begins; at its last slash or closing brace; and at the commas
between the alternatives in braces. A backslash takes the meaning from the next character.
-/

namespace Yurin.Glob

/-- A character with a meaning in patterns. -/
def isSpecial (b : UInt8) : Bool :=
  b == Ascii.star || b == Ascii.question || b == Ascii.leftSquare || b == Ascii.leftBrace

/-- A character that a backslash can take the meaning from, in names without other special
characters. -/
def isEscapable (b : UInt8) : Bool := isSpecial b || b == Ascii.rightSquare || b == Ascii.rightBrace

/-- How many bytes stand before the first special character that is not escaped. -/
def firstSpecial? : (position : Nat) → Bytes → Option Nat
  | _, [] => none
  | position, Ascii.backslash :: _ :: rest => firstSpecial? (position + 2) rest
  | position, b :: rest => if isSpecial b then some position else firstSpecial? (position + 1) rest

/-- A text without special characters as a name. -/
def unescape : Bytes → Bytes
  | [] => []
  | [b] => [b]
  | b :: c :: rest =>
    if b = Ascii.backslash && isEscapable c then c :: unescape rest else b :: unescape (c :: rest)

/-- Whether two stars come next to each other, before the end of a pattern. -/
def hasInnerStars : Bytes → Bool
  | Ascii.backslash :: _ :: rest => hasInnerStars rest
  | a :: b :: c :: d :: rest =>
    (a == Ascii.star && b == Ascii.star) || hasInnerStars (b :: c :: d :: rest)
  | _ => false

/-! ## Where a search begins -/

/-- How many bytes stand before the last slash that comes before every special character. -/
def baseLength : (position : Nat) → (found : Option Nat) → Bytes → Option Nat
  | _, found, [] => found
  | position, found, Ascii.backslash :: _ :: rest => baseLength (position + 2) found rest
  | position, found, b :: rest =>
    if b = Path.slash then baseLength (position + 1) (some position) rest
    else if isSpecial b then found
    else baseLength (position + 1) found rest

/-- The directory where a search begins, and the pattern from there on. -/
def splitBase (pattern : Bytes) : Bytes × Bytes :=
  match baseLength 0 none pattern with
  | none => (Path.here, pattern)
  | some 0 => ([Path.slash], pattern.drop 1)
  | some n => (unescape (pattern.take n), pattern.drop (n + 1))

/-! ## Well-formed patterns -/

/-- Where a check of a pattern is: in a class that has members or not, or outside of classes. -/
inductive Check
  | outside
  | opened
  | negated
  | inside

/-- Whether every class and every pair of braces is closed, no class is empty and no backslash
stands at the end. -/
def isWellFormed : Check → (braces : Nat) → Bytes → Bool
  | .outside, braces, [] => braces == 0
  | _, _, [] => false
  | .outside, _, [Ascii.backslash] => false
  | .outside, braces, Ascii.backslash :: _ :: rest => isWellFormed .outside braces rest
  | .outside, braces, b :: rest =>
    if b = Ascii.leftSquare then isWellFormed .opened braces rest
    else if b = Ascii.leftBrace then isWellFormed .outside (braces + 1) rest
    else if b = Ascii.rightBrace then braces != 0 && isWellFormed .outside (braces - 1) rest
    else isWellFormed .outside braces rest
  | .opened, braces, b :: rest =>
    if b = Ascii.bang || b = Ascii.caret then isWellFormed .negated braces rest
    else if b = Ascii.rightSquare then false
    else if b = Ascii.backslash then isWellFormed .inside braces (rest.drop 1)
    else isWellFormed .inside braces rest
  | .negated, braces, b :: rest =>
    if b = Ascii.rightSquare then false
    else if b = Ascii.backslash then isWellFormed .inside braces (rest.drop 1)
    else isWellFormed .inside braces rest
  | .inside, braces, b :: rest =>
    if b = Ascii.rightSquare then isWellFormed .outside braces rest
    else if b = Ascii.backslash then isWellFormed .inside braces (rest.drop 1)
    else isWellFormed .inside braces rest
termination_by _ _ text => text.length
decreasing_by all_goals simp; try omega

/-! ## Elements and alternatives -/

/-- The place of the last byte that satisfies a test and has no backslash before it, from a position
on; `found` is the place of the one before. -/
def lastUnescapedFrom (test : UInt8 → Bool) :
    (position : Nat) → (previous : UInt8) → (found : Option Nat) → Bytes → Option Nat
  | _, _, found, [] => found
  | position, previous, found, b :: rest =>
    let found := if test b && previous != Ascii.backslash then some position else found
    lastUnescapedFrom test (position + 1) b found rest

/-- The place of the last byte that satisfies a test and has no backslash before it. -/
def lastUnescaped? (test : UInt8 → Bool) (text : Bytes) : Option Nat :=
  lastUnescapedFrom test 0 0 none text

/-- The place of the last slash. -/
def lastSlash? : Bytes → Option Nat := lastUnescaped? (· == Path.slash)

/-- The place of the last slash or closing brace. -/
def lastSlashOrBrace? : Bytes → Option Nat :=
  lastUnescaped? fun b => b == Path.slash || b == Ascii.rightBrace

/-- The place of the opening brace of a pair, by the text before its closing one, read backwards;
`depth` counts the pairs inside. -/
def openingBrace? : (depth : Nat) → (backwards : Bytes) → Option Nat
  | _, [] => none
  | depth, b :: before =>
    let isFree := before.head? != some Ascii.backslash
    if isFree && b == Ascii.rightBrace then openingBrace? (depth + 1) before
    else if isFree && b == Ascii.leftBrace then
      match depth with
      | 0 => some before.length
      | depth + 1 => openingBrace? depth before
    else openingBrace? depth before

/-- How a pattern is searched: as a name, in a directory, or alternative by alternative. -/
inductive Shape
  | name (name : Bytes)
  /-- The last element of a pattern, below directories with a name. -/
  | below (directory element : Bytes)
  /-- The last element of a pattern, below directories that match a pattern. -/
  | belowMatches (directories element : Bytes)
  /-- Alternatives after a text and before another one, below directories that match a pattern. -/
  | choice (directories : Option Bytes) (before alternatives after : Bytes)
  deriving DecidableEq, Repr

/-- The shape of a pattern that is divided at a slash, if there is one. -/
def shapeAt (pattern : Bytes) (special : Nat) : (slash : Option Nat) → Shape
  | none => .below Path.here pattern
  | some slash =>
    let (directory, element) := (pattern.take slash, pattern.drop (slash + 1))
    if slash ≤ special then .below (unescape directory) element else .belowMatches directory element

/-- The shape of a pattern: whatever stands last in it, a slash or a pair of braces, counts. A
closing brace without an opening one does not. -/
def shape (pattern : Bytes) : Shape :=
  match firstSpecial? 0 pattern with
  | none => .name (unescape pattern)
  | some special =>
    match lastSlashOrBrace? pattern with
    | none => shapeAt pattern special none
    | some last =>
      if pattern[last]? != some Ascii.rightBrace then shapeAt pattern special (some last)
      else match openingBrace? 0 (pattern.take last).reverse with
        | none => shapeAt pattern special (lastSlash? (pattern.take last))
        | some opening =>
          let alternatives := pattern.slice (opening + 1) last
          let after := pattern.drop (last + 1)
          let split := lastSlashOrBrace? (pattern.take opening)
          match split.filter fun n => pattern[n]? == some Path.slash with
          | none => .choice none (pattern.take opening) alternatives after
          | some slash =>
            let before := pattern.slice (slash + 1) opening
            .choice (some (pattern.take slash)) before alternatives after

/-- The first alternative and the text after its comma. Commas in braces count for them alone. -/
def cutAlternative? : (depth : Int) → Bytes → Option (Bytes × Bytes)
  | _, [] => none
  | depth, Ascii.backslash :: c :: rest =>
    (cutAlternative? depth rest).map fun (first, rest) => (Ascii.backslash :: c :: first, rest)
  | depth, b :: rest =>
    if depth == 0 && b == Ascii.comma then some ([], rest)
    else
      let depth := if b == Ascii.leftBrace then depth + 1
        else if b == Ascii.rightBrace then depth - 1
        else depth
      (cutAlternative? depth rest).map fun (first, rest) => (b :: first, rest)

/-- The alternatives in the text between two braces, at most `fuel`. An empty one in the last place
does not count. -/
def alternatives : (fuel : Nat) → Bytes → List Bytes
  | 0, _ => []
  | _ + 1, [] => []
  | fuel + 1, text =>
    match cutAlternative? 0 text with
    | none => [text]
    | some (first, rest) => first :: alternatives fuel rest

end Yurin.Glob
