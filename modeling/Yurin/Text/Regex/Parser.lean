import Yurin.Text.Regex.Basic

/-!
# The text of regular expressions

The text of an expression is read in two steps: into tokens (`Regex.tokens?`), where a class in
brackets, an escape or a repetition is one, and from tokens into an expression (`Regex.build?`),
with the groups that are open on a stack. A class or a group that is not closed, a range that runs
backwards, a repetition of nothing or of a repetition, and an escape without a meaning have none. A
range of numbers is a single sign of the text; in a class it counts as it is spelled out.
-/

namespace Yurin

/-- A sign of the text of an expression. -/
inductive RegexSign
  | char (c : Char)
  /-- The group of all numbers of a range, of which the upper end is always one. -/
  | number (low high : Int)
  deriving DecidableEq, Repr

namespace RegexSign

/-- The signs of some characters. -/
def ofChars (chars : List Char) : List RegexSign := chars.map .char

/-- The signs of a text. -/
def ofString (text : String) : List RegexSign := ofChars text.toList

/-- The text of an integer. -/
def ofInt (n : Int) : List RegexSign := (intText n).map fun b => .char (Char.ofNat b.toNat)

/-- The numbers of a range, spelled out. -/
def spelled (low high : Int) : List RegexSign :=
  ofString "(?:"
    ++ ((List.range (high - low).toNat).flatMap fun (n : Nat) => ofInt (low + n) ++ ofString "|")
    ++ ofInt high ++ ofString ")"

/-- A bound on the steps that a sign takes: one, and one for each of the characters it spells. -/
def weight : RegexSign → Nat
  | .char _ => 1
  | .number low high => 1 + ((high - low).toNat + 2) * (Regex.maxNumberLength + 4)

end RegexSign

/-- A token of the text of an expression. -/
inductive RegexToken
  | atom (r : Regex)
  | opening
  | closing
  | bar
  | repetition (least : Nat) (most : Option Nat)
  deriving Repr

namespace Regex

/-! ## Escapes -/

/-- The ranges of digits. -/
def digitRanges : List (Nat × Nat) := [(48, 57)]

/-- The ranges of blanks. -/
def blankRanges : List (Nat × Nat) := [(9, 10), (12, 13), (32, 32)]

/-- The ranges of the letters of words. -/
def wordRanges : List (Nat × Nat) := [(48, 57), (65, 90), (95, 95), (97, 122)]

/-- The codes between some ranges in order, from `low` on. -/
def complement : (low : Nat) → List (Nat × Nat) → List (Nat × Nat)
  | low, [] => [(low, 0x10FFFF)]
  | low, (first, last) :: rest =>
    if low < first then (low, first - 1) :: complement (last + 1) rest
    else complement (last + 1) rest

/-- The ranges that an escaped letter stands for. -/
def rangesOfLetter? : Char → Option (List (Nat × Nat))
  | 'd' => some digitRanges
  | 'D' => some (complement 0 digitRanges)
  | 's' => some blankRanges
  | 'S' => some (complement 0 blankRanges)
  | 'w' => some wordRanges
  | 'W' => some (complement 0 wordRanges)
  | _ => none

/-- The place that an escaped letter stands for. -/
def placeOfLetter? : Char → Option Regex
  | 'A' => some .start
  | 'z' => some .stop
  | 'b' => some (.boundary false)
  | 'B' => some (.boundary true)
  | _ => none

/-- The character that an escaped one stands for: a control character for some letters, and itself
for a sign of ASCII. -/
def escaped? (c : Char) : Option Char :=
  match c with
  | 'a' => some '\x07'
  | 'f' => some '\x0c'
  | 'n' => some '\n'
  | 'r' => some '\r'
  | 't' => some '\t'
  | 'v' => some '\x0b'
  | c => if c.toNat < 128 && !c.isAlphanum then some c else none

/-! ## Classes -/

/-- A text whose first sign is a character: a range of numbers there is spelled out. -/
def spellFirst : List RegexSign → List RegexSign
  | .number low high :: rest => RegexSign.spelled low high ++ rest
  | text => text

/-- The character at the head of a class, and what follows it. -/
def member? (text : List RegexSign) : Option (Char × List RegexSign) :=
  match spellFirst text with
  | .char '\\' :: .char c :: rest => (escaped? c).map fun c => (c, rest)
  | .char '\\' :: _ => none
  | .char c :: rest => some (c, rest)
  | _ => none

/-- What follows a hyphen, where it stands for a range: not before the end of a class or of the
text. -/
def afterHyphen? (text : List RegexSign) : Option (List RegexSign) :=
  match spellFirst text with
  | [.char '-'] => none
  | .char '-' :: .char ']' :: _ => none
  | .char '-' :: rest => some rest
  | _ => none

/-- The ranges of the item at the head of a class, and what follows it: an escaped letter for
several characters, one character, or a range. -/
def item? (text : List RegexSign) : Option (List (Nat × Nat) × List RegexSign) :=
  let letter := match text with
    | .char '\\' :: .char c :: rest => (rangesOfLetter? c).map fun ranges => (ranges, rest)
    | _ => none
  letter.or do
    let (low, rest) ← member? text
    match afterHyphen? rest with
    | none => return ([(low.toNat, low.toNat)], rest)
    | some rest =>
      let (high, rest) ← member? rest
      if high < low then none else return ([(low.toNat, high.toNat)], rest)

/-- The ranges of a class up to its closing bracket, and what follows it. A bracket that is the
first member does not close the class. -/
def classRanges? : (fuel : Nat) → (first : Bool) → List RegexSign →
    Option (List (Nat × Nat) × List RegexSign)
  | 0, _, _ => none
  | fuel + 1, first, text =>
    match first, text with
    | false, .char ']' :: rest => some ([], rest)
    | _, text => do
      let (ranges, rest) ← item? text
      let (more, rest) ← classRanges? fuel false rest
      return (ranges ++ more, rest)

/-- The class that begins after an opening bracket, and what follows it. -/
def class? (fuel : Nat) : List RegexSign → Option (Regex × List RegexSign)
  | .char '^' :: rest =>
    (classRanges? fuel true rest).map fun (ranges, rest) => (.one ⟨true, ranges⟩, rest)
  | rest => (classRanges? fuel true rest).map fun (ranges, rest) => (.one ⟨false, ranges⟩, rest)

/-! ## Repetitions -/

/-- The most times that a repetition can ask for. -/
def maxRepetition : Nat := 1000

/-- The decimal digits at the head of a text, and what follows them. -/
def digits : List RegexSign → List Char × List RegexSign
  | .char c :: rest =>
    if c.isDigit then
      let (more, rest) := digits rest
      (c :: more, rest)
    else ([], .char c :: rest)
  | text => ([], text)

/-- The number at the head of a text, without zeros in front, and what follows it. -/
def count? (text : List RegexSign) : Option (Nat × List RegexSign) :=
  match digits text with
  | ([], _) | ('0' :: _ :: _, _) => none
  | (chars, rest) => some (chars.foldl (fun n c => 10 * n + (c.toNat - '0'.toNat)) 0, rest)

/-- The bounds of a repetition that begins after an opening brace, and what follows it. -/
def bounds? (text : List RegexSign) : Option ((Nat × Option Nat) × List RegexSign) := do
  let (least, rest) ← count? text
  match rest with
  | .char '\x7d' :: rest => return ((least, some least), rest)
  | .char ',' :: .char '\x7d' :: rest => return ((least, none), rest)
  | .char ',' :: rest =>
    let (most, rest) ← count? rest
    match rest with
    | .char '\x7d' :: rest => return ((least, some most), rest)
    | _ => none
  | _ => none

/-- Whether bounds are in order and not too large. -/
def areBounds (least : Nat) (most : Option Nat) : Bool :=
  least ≤ maxRepetition && most.all fun most => least ≤ most && most ≤ maxRepetition

/-- A text without the question mark that may follow a repetition: which of several matches is
preferred does not matter. -/
def dropLazy : List RegexSign → List RegexSign
  | .char '?' :: rest => rest
  | text => text

/-! ## Tokens -/

/-- The token at the head of a text, and what follows it; `fuel` bounds the signs of a class. -/
def token? (fuel : Nat) : List RegexSign → Option (RegexToken × List RegexSign)
  | [] => none
  | .number low high :: rest => some (.atom (.number low high), rest)
  | .char c :: rest =>
    match c, rest with
    | '(', .char '?' :: .char ':' :: rest => some (.opening, rest)
    | '(', .char '?' :: _ => none
    | '(', _ => some (.opening, rest)
    | ')', _ => some (.closing, rest)
    | '|', _ => some (.bar, rest)
    | '^', _ => some (.atom .start, rest)
    | '$', _ => some (.atom .stop, rest)
    | '.', _ => some (.atom anyInLine, rest)
    | '[', _ => (class? fuel rest).map fun (r, rest) => (.atom r, rest)
    | '*', _ => some (.repetition 0 none, dropLazy rest)
    | '+', _ => some (.repetition 1 none, dropLazy rest)
    | '?', _ => some (.repetition 0 (some 1), dropLazy rest)
    | '\x7b', _ =>
      match bounds? rest with
      | none => some (.atom (exactly c), rest)
      | some ((least, most), rest) =>
        if areBounds least most then some (.repetition least most, dropLazy rest) else none
    | '\\', .char c :: rest =>
      let atom := (placeOfLetter? c).or
        (((rangesOfLetter? c).map fun ranges => .one ⟨false, ranges⟩).or ((escaped? c).map exactly))
      atom.map fun r => (.atom r, rest)
    | '\\', _ => none
    | c, rest => some (.atom (exactly c), rest)

/-- The tokens of a text; `fuel` bounds their number. -/
def tokens? : (fuel : Nat) → List RegexSign → Option (List RegexToken)
  | _, [] => some []
  | 0, _ => none
  | fuel + 1, text => do
    let (token, rest) ← token? (fuel + 1) text
    return token :: (← tokens? fuel rest)

/-! ## Expressions -/

/-- An open group: its finished alternatives and the parts of the last one, the last first. -/
structure Group where
  alternatives : List Regex
  parts : List Regex

namespace Group

/-- A group without anything. -/
def start : Group := ⟨[], []⟩

/-- The group with a part more. -/
def push (g : Group) (r : Regex) : Group := { g with parts := r :: g.parts }

/-- The group with its last alternative finished. -/
def next (g : Group) : Group := ⟨ofSequence g.parts.reverse :: g.alternatives, []⟩

/-- The expression of a whole group. -/
def regex (g : Group) : Regex := g.alternatives.foldl .either (ofSequence g.parts.reverse)

end Group

/-- The expression of some tokens inside a group and the groups around it; `again` says whether a
repetition comes right before. -/
def build? : (outer : List Group) → (inner : Group) → (again : Bool) → List RegexToken →
    Option Regex
  | [], inner, _, [] => some inner.regex
  | _ :: _, _, _, [] => none
  | outer, inner, _, .atom r :: rest => build? outer (inner.push r) false rest
  | outer, inner, _, .opening :: rest => build? (inner :: outer) .start false rest
  | [], _, _, .closing :: _ => none
  | group :: outer, inner, _, .closing :: rest => build? outer (group.push inner.regex) false rest
  | outer, inner, _, .bar :: rest => build? outer inner.next false rest
  | outer, inner, again, .repetition least most :: rest =>
    match again, inner.parts with
    | false, part :: parts =>
      build? outer { inner with parts := .repeated least most part :: parts } true rest
    | _, _ => none

/-- The expression that a text stands for. -/
def parse? (text : List RegexSign) : Option Regex :=
  (tokens? (total (text.map RegexSign.weight)) text).bind (build? [] .start false)

end Regex

end Yurin
