import Yurin.Text.Integer
import Yurin.Text.Rune

/-!
# Regular expressions

A regular expression stands for texts. It is matched inside a text from a set of positions to the
set of positions where a match can end (`Regex.ends`): a sequence goes on from where its first part
ended, a repetition until no new position is reached. What is between two positions never matters,
so a match takes no more steps than there are parts and positions.
-/

namespace Yurin

/-- A set of characters: those with a code in some ranges, or all others. -/
structure CharSet where
  negated : Bool
  ranges : List (Nat × Nat)
  deriving DecidableEq, Repr

/-- Whether a character is in a set. -/
def CharSet.contains (s : CharSet) (c : Char) : Bool :=
  (s.ranges.any fun (low, high) => low ≤ c.toNat && c.toNat ≤ high) != s.negated

/-- A regular expression. -/
inductive Regex
  | empty
  /-- The start of the text. -/
  | start
  /-- The end of the text. -/
  | stop
  /-- A place with a letter of a word on just one side, or a place that is none. -/
  | boundary (negated : Bool)
  | one (set : CharSet)
  /-- The decimal text of a number of a range; its upper end always belongs to it. -/
  | number (low high : Int)
  | sequence (first second : Regex)
  | either (first second : Regex)
  | repeated (least : Nat) (most : Option Nat) (inner : Regex)
  deriving Repr

namespace Regex

/-- The expression for one character. -/
def exactly (c : Char) : Regex := .one ⟨false, [(c.toNat, c.toNat)]⟩

/-- The expression for any character of a line. -/
def anyInLine : Regex := .one ⟨true, [(10, 10)]⟩

/-- The expression for some expressions one after the other. -/
def ofSequence (parts : List Regex) : Regex := parts.foldl .sequence .empty

/-- Whether a character belongs to words. -/
def isWord (c : Char) : Bool := c.isAlphanum || c == '_'

/-- Whether a position is between a letter of a word and something else. -/
def isBoundary (text : Array Char) (i : Nat) : Bool :=
  let before := match i with
    | 0 => false
    | i + 1 => (text[i]?.map isWord).getD false
  before != (text[i]?.map isWord).getD false

/-- Whether characters are the decimal text of a number in a range. -/
def isNumberIn (low high : Int) (chars : List Char) : Bool :=
  let text := encodeChars chars
  match decimalInteger text with
  | .ok n => intText n == text && ((low ≤ n && n ≤ high) || n == high)
  | .error _ => false

/-- The most characters in the text of a number. -/
def maxNumberLength : Nat := 20

/-- The positions where a number of a range ends. -/
def numberEnds (text : Array Char) (low high : Int) (i : Nat) : List Nat :=
  ((List.range (maxNumberLength + 1)).map (i + ·)).filter fun j =>
    j ≤ text.size && isNumberIn low high (text.extract i j).toList

/-- The positions after one step more than once. -/
def iterate (step : List Nat → List Nat) : (times : Nat) → List Nat → List Nat
  | 0, positions => positions
  | times + 1, positions => iterate step times (step positions)

/-- The positions after up to some steps. -/
def closure (step : List Nat → List Nat) : (times : Nat) → List Nat → List Nat
  | 0, positions => positions
  | times + 1, positions =>
    let new := (step positions).filter (!positions.contains ·)
    if new.isEmpty then positions else closure step times (positions ++ new)

/-- The positions where matches from some positions end. -/
def ends (text : Array Char) : Regex → List Nat → List Nat
  | .empty, positions => positions
  | .start, positions => positions.filter (· == 0)
  | .stop, positions => positions.filter (· == text.size)
  | .boundary negated, positions => positions.filter fun i => isBoundary text i != negated
  | .one set, positions =>
    positions.filterMap fun i =>
      text[i]?.bind fun c => if set.contains c then some (i + 1) else none
  | .number low high, positions => (positions.flatMap (numberEnds text low high)).eraseDups
  | .sequence first second, positions => second.ends text (first.ends text positions)
  | .either first second, positions =>
    (first.ends text positions ++ second.ends text positions).eraseDups
  | .repeated least most inner, positions =>
    let times := match most with
      | some most => most - least
      | none => text.size + 1
    closure (inner.ends text) times (iterate (inner.ends text) least positions)

/-- Whether a text has a match of an expression somewhere. -/
def occursIn (r : Regex) (text : List Char) : Bool :=
  !(r.ends text.toArray (List.range (text.length + 1))).isEmpty

end Regex

end Yurin
