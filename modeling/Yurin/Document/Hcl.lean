import Yurin.Document

/-!
# HCL documents

A body has attributes, `name = value`, and blocks, `name "label" { ... }`, each on lines of its own;
a block with a single attribute may stand on one line. Values are strings with `${...}` inside,
words, numbers, and references such as `palette.red` or `palette["red"]`.
-/

namespace Yurin.Hcl

/-- A value before references are looked up. -/
inductive Value
  | text (text : List Char)
  | truth (b : Bool)
  | number (text : List Char)
  | null
  | reference (names : List (List Char))
  /-- A string with values inside. -/
  | template (pieces : List Value)
  /-- A list or an object, which no attribute here can be. -/
  | collection
  /-- A function call; there are no functions. -/
  | call
  deriving Repr

/-- An attribute. -/
structure Attribute where
  name : List Char
  value : Value
  deriving Repr

/-- A block with the attributes of its body; `nested` says whether the body has blocks. -/
structure Block where
  name : List Char
  labels : List (List Char)
  attributes : List Attribute
  nested : Bool
  deriving Repr

/-- The content of a file. -/
structure Body where
  attributes : List Attribute
  blocks : List Block
  deriving Repr

/-! ## Blanks and names -/

/-- What follows the end of a block comment. -/
def afterComment? : List Char → Option (List Char)
  | [] => none
  | '*' :: '/' :: rest => some rest
  | _ :: rest => afterComment? rest

/-- A text without the blanks and comments at its start; with `across`, without line ends, too. -/
def dropSpace? (across : Bool) : (fuel : Nat) → List Char → Option (List Char)
  | 0, text => some text
  | fuel + 1, text =>
    match dropBlanks text with
    | '#' :: rest => dropSpace? across fuel (rest.dropWhile (· != '\n'))
    | '/' :: '/' :: rest => dropSpace? across fuel (rest.dropWhile (· != '\n'))
    | '/' :: '*' :: rest => do dropSpace? across fuel (← afterComment? rest)
    | '\n' :: rest => if across then dropSpace? across fuel rest else some ('\n' :: rest)
    | '\r' :: '\n' :: rest => if across then dropSpace? across fuel rest else some ('\n' :: rest)
    | text => some text

/-- A text without blanks and comments at its start. -/
def skip? (text : List Char) : Option (List Char) := dropSpace? false text.length text

/-- A text without blanks, comments and line ends at its start. -/
def skipLines? (text : List Char) : Option (List Char) := dropSpace? true text.length text

/-- A name: letters, digits, underscores and hyphens, with a letter or an underscore in front. -/
def name? (text : List Char) : Option (List Char × List Char) :=
  match text with
  | c :: _ =>
    if c.isAlpha || c == '_' || '\x7f' < c then
      let name := text.takeWhile fun c => c.isAlphanum || c == '_' || c == '-' || '\x7f' < c
      some (name, text.drop name.length)
    else none
  | [] => none

/-- The end of an item: a line end or the end of the text. -/
def itemEnd? (text : List Char) : Option (List Char) := do
  match ← skip? text with
  | [] => return []
  | '\n' :: rest => return rest
  | _ => none

/-! ## Values -/

/-- The escapes between double quotes. -/
def escapes : Escapes where
  letters := [('n', '\n'), ('r', '\r'), ('t', '\t'), ('"', '"'), ('\\', '\\')]
  numbered := [('u', 4), ('U', 8)]

/-- The decimal text of `digits · 10 ^ exponent`, without zeros that do not count. -/
def decimalText (digits : List Char) (exponent : Int) : List Char :=
  let point := digits.length + exponent
  let whole := (digits ++ List.replicate exponent.toNat '0').take point.toNat
  let fraction := List.replicate (-point).toNat '0' ++ digits.drop point.toNat
  let whole := whole.dropWhile (· == '0')
  let fraction := (fraction.reverse.dropWhile (· == '0')).reverse
  (if whole.isEmpty then ['0'] else whole) ++ (if fraction.isEmpty then [] else '.' :: fraction)

/-- The exponent at the start of a text, and what follows it. -/
def exponent (text : List Char) : Int × List Char :=
  match text with
  | c :: rest =>
    if c = 'e' || c = 'E' then
      let (negative, digits) := match rest with
        | '-' :: rest => (true, rest)
        | '+' :: rest => (false, rest)
        | rest => (false, rest)
      match digits.takeWhile Char.isDigit with
      | [] => (0, text)
      | power =>
        let value : Int := (power.foldl (fun n c => 10 * n + (c.toNat - '0'.toNat)) 0 : Nat)
        (if negative then -value else value, digits.drop power.length)
    else (0, text)
  | [] => (0, text)

/-- The number at the start of a text as a decimal text, and what follows it. -/
def number? (text : List Char) : Option (List Char × List Char) :=
  match text.takeWhile Char.isDigit with
  | [] => none
  | whole =>
    let (fraction, rest) := match text.drop whole.length with
      | '.' :: rest =>
        match rest.takeWhile Char.isDigit with
        | [] => ([], '.' :: rest)
        | fraction => (fraction, rest.drop fraction.length)
      | rest => ([], rest)
    let (power, rest) := exponent rest
    some (decimalText (whole ++ fraction) (power - fraction.length), rest)

/-- A value of pieces of a string: one piece of text stands for itself. -/
def joined (pieces : List Value) : Value :=
  match pieces with
  | [] => .text []
  | [.text text] => .text text
  | pieces => .template pieces

/-- Adds text in front of the pieces of a string. -/
def pushText (chars : List Char) : List Value → List Value
  | .text text :: rest => .text (chars ++ text) :: rest
  | pieces => .text chars :: pieces

mutual

/-- A value. -/
def value? : (fuel : Nat) → List Char → Option (Value × List Char)
  | 0, _ => none
  | fuel + 1, text =>
    match text with
    | '"' :: rest => do
      let (pieces, rest) ← pieces? fuel rest
      return (joined pieces, rest)
    | '(' :: rest => do
      let (value, rest) ← value? fuel (← skipLines? rest)
      match ← skipLines? rest with
      | ')' :: rest => return (value, rest)
      | _ => none
    | '[' :: rest => do
      let rest ← items? fuel ']' (← skipLines? rest)
      return (.collection, rest)
    | '\x7b' :: rest => do
      let rest ← items? fuel '\x7d' (← skipLines? rest)
      return (.collection, rest)
    | c :: _ =>
      let sign := if c = '-' then ['-'] else []
      match number? (text.drop sign.length) with
      | some (number, rest) => some (.number (sign ++ number), rest)
      | none => do
        let (name, rest) ← name? text
        if spells ["true"] name then return (.truth true, rest)
        else if spells ["false"] name then return (.truth false, rest)
        else if spells ["null"] name then return (.null, rest)
        else match ← skip? rest with
          | '(' :: rest => do
            let rest ← items? fuel ')' (← skipLines? rest)
            return (.call, rest)
          | _ =>
            let (names, rest) ← path? fuel rest
            return (.reference (name :: names), rest)
    | [] => none

/-- The rest of a reference: names after periods or in brackets. -/
def path? : (fuel : Nat) → List Char → Option (List (List Char) × List Char)
  | 0, _ => none
  | fuel + 1, text =>
    match text with
    | '.' :: rest => do
      let (name, rest) ← name? rest
      let (names, rest) ← path? fuel rest
      return (name :: names, rest)
    | '[' :: '"' :: rest => do
      match ← pieces? fuel rest with
      | ([.text name], ']' :: rest) =>
        let (names, rest) ← path? fuel rest
        return (name :: names, rest)
      | _ => none
    | _ => some ([], text)

/-- The pieces of a string up to its closing quote. -/
def pieces? : (fuel : Nat) → List Char → Option (List Value × List Char)
  | 0, _ => none
  | fuel + 1, text =>
    match text with
    | [] => none
    | '"' :: rest => some ([], rest)
    | '\\' :: rest => do
      let (c, rest) ← escaped? escapes rest
      let (pieces, rest) ← pieces? fuel rest
      return (pushText [c] pieces, rest)
    | '$' :: '$' :: '\x7b' :: rest => do
      let (pieces, rest) ← pieces? fuel rest
      return (pushText ['$', '\x7b'] pieces, rest)
    | '%' :: '%' :: '\x7b' :: rest => do
      let (pieces, rest) ← pieces? fuel rest
      return (pushText ['%', '\x7b'] pieces, rest)
    | '$' :: '\x7b' :: rest => do
      let (value, rest) ← value? fuel (← skipLines? rest)
      match ← skipLines? rest with
      | '\x7d' :: rest =>
        let (pieces, rest) ← pieces? fuel rest
        return (value :: pieces, rest)
      | _ => none
    | '%' :: '\x7b' :: _ => none
    | c :: rest =>
      if c = '\n' then none
      else do
        let (pieces, rest) ← pieces? fuel rest
        return (pushText [c] pieces, rest)

/-- Reads over the items of a list, an object or a call up to its closing bracket. -/
def items? : (fuel : Nat) → (closing : Char) → List Char → Option (List Char)
  | 0, _, _ => none
  | fuel + 1, closing, text =>
    match text with
    | [] => none
    | c :: rest =>
      if c = closing then some rest
      else do
        let (_, rest) ← value? fuel text
        match ← skipLines? rest with
        | ',' :: rest => items? fuel closing (← skipLines? rest)
        | '=' :: rest | ':' :: rest =>
          if closing = '\x7d' then items? fuel closing (← skipLines? rest) else none
        | rest =>
          if closing = '\x7d' then items? fuel closing rest
          else if rest.head? == some closing then some (rest.drop 1)
          else none

end

/-! ## Bodies -/

/-- An attribute or the head of a block. -/
inductive Item
  | attribute (a : Attribute)
  | head (name : List Char) (labels : List (List Char))

/-- The labels of a block up to its opening brace. -/
def labels? : (fuel : Nat) → List Char → Option (List (List Char) × List Char)
  | 0, _ => none
  | fuel + 1, text =>
    match text with
    | '\x7b' :: rest => some ([], rest)
    | '"' :: rest => do
      match ← pieces? (rest.length + 1) rest with
      | ([.text label], rest) =>
        let (labels, rest) ← labels? fuel (← skip? rest)
        return (label :: labels, rest)
      | ([], rest) =>
        let (labels, rest) ← labels? fuel (← skip? rest)
        return ([] :: labels, rest)
      | _ => none
    | _ => do
      let (label, rest) ← name? text
      let (labels, rest) ← labels? fuel (← skip? rest)
      return (label :: labels, rest)

/-- An attribute, or a block as far as its opening brace. -/
def item? (text : List Char) : Option (Item × List Char) := do
  let (name, rest) ← name? text
  match ← skip? rest with
  | '=' :: rest =>
    let (value, rest) ← value? (2 * rest.length + 2) (← skip? rest)
    return (.attribute ⟨name, value⟩, rest)
  | rest =>
    let (labels, rest) ← labels? (rest.length + 1) rest
    return (.head name labels, rest)

/-- The attributes of a body; no name can come twice. -/
def attributes? (attributes : List Attribute) : Option (List Attribute) :=
  if Document.distinct (attributes.map (·.name)) then some attributes else none

mutual

/-- Reads a body into its attributes, its blocks, and what follows it: the end of the text for the
outermost body, otherwise what follows the closing brace. -/
def body? : (fuel : Nat) → (inner : Bool) → List Char →
    Option (List Attribute × List Block × List Char)
  | 0, _, _ => none
  | fuel + 1, inner, text => do
    match ← skipLines? text with
    | [] => if inner then none else return ([], [], [])
    | '\x7d' :: rest => if inner then return ([], [], rest) else none
    | text =>
      match ← item? text with
      | (.attribute a, rest) =>
        let (attributes, blocks, rest) ← body? fuel inner (← itemEnd? rest)
        return (a :: attributes, blocks, rest)
      | (.head name labels, rest) =>
        let (attributes, nested, rest) ← blockBody? fuel rest
        let block : Block := ⟨name, labels, ← attributes? attributes, !nested.isEmpty⟩
        let (attributes, blocks, rest) ← body? fuel inner (← itemEnd? rest)
        return (attributes, block :: blocks, rest)

/-- The body of a block after its opening brace: lines of items, or one attribute. -/
def blockBody? : (fuel : Nat) → List Char → Option (List Attribute × List Block × List Char)
  | 0, _ => none
  | fuel + 1, text => do
    match ← skip? text with
    | '\x7d' :: rest => return ([], [], rest)
    | '\n' :: rest => body? fuel true rest
    | text =>
      match ← item? text with
      | (.attribute a, rest) =>
        match ← skip? rest with
        | '\x7d' :: rest => return ([a], [], rest)
        | _ => none
      | _ => none

end

/-- The content of a file. -/
def parse? (content : Bytes) : Option Body := do
  let text ← charsOf? (withoutByteOrderMark content)
  let (attributes, blocks, _) ← body? (2 * text.length + 2) false text
  return ⟨← attributes? attributes, blocks⟩

end Yurin.Hcl
