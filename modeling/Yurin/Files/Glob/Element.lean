import Yurin.Text.Rune

/-!
# Pattern elements

An element of a pattern stands for names: `*` for any characters, `?` for one, a class in brackets
for one of its members, braces for one of their alternatives; a backslash takes the next character
as it is. A name is matched from left to right. Where it does not go on, the last star takes one
character more. An element that turns out to be ill-formed at a place that is reached has no answer;
what is not reached does not matter.
-/

namespace Yurin.Glob

/-! ## Classes -/

/-- The greatest character, which begins no range. -/
def maxChar : Char := Char.ofNat 0x10FFFF

/-- The first character of a text; at its end, the replacement character. -/
def firstChar : List Char → Char
  | [] => Char.ofNat 0xFFFD
  | c :: _ => c

/-- Looks for a character among the members of a class, up to the first that has it: whether there
is one, and what has not been read. `last` is the member before, if it can begin a range. -/
def findMember (c : Char) : (fuel : Nat) → (last : Char) → List Char → Bool × List Char
  | 0, _, text => (false, text)
  | _ + 1, _, [] => (false, [])
  | _ + 1, _, ']' :: rest => (false, ']' :: rest)
  | fuel + 1, last, p :: rest =>
    if last < maxChar && p == '-' && !rest.isEmpty && rest.head? != some ']' then
      let rest := if rest.head? == some '\\' then rest.drop 1 else rest
      if last ≤ c && c ≤ firstChar rest then (true, rest.drop 1)
      else findMember c fuel maxChar (rest.drop 1)
    else
      let (p, rest) := if p == '\\' then (firstChar rest, rest.drop 1) else (p, rest)
      if p == c then (true, rest) else findMember c fuel p rest

/-- What follows the next closing bracket that is not escaped. -/
def afterBracket? : List Char → Option (List Char)
  | [] => none
  | '\\' :: _ :: rest => afterBracket? rest
  | c :: rest => if c == ']' then some rest else afterBracket? rest

/-- How a part of an element takes a character. -/
inductive Taken
  | illFormed
  | refused
  | accepted (rest : List Char)
  deriving DecidableEq, Repr

/-- How the class after an opening bracket takes a character. -/
def takeClass (c : Char) (text : List Char) : Taken :=
  let (negated, text) := match text with
    | '!' :: rest | '^' :: rest => (true, rest)
    | _ => (false, text)
  match text with
  | [] | ']' :: _ => .illFormed
  | _ =>
    let (found, rest) := findMember c text.length maxChar text
    if found == negated then if rest.isEmpty then .illFormed else .refused
    else match afterBracket? rest with
      | none => .illFormed
      | some rest => .accepted rest

/-! ## Braces -/

/-- The alternatives of the braces after an opening one, and what follows the closing one; `depth`
counts the pairs inside. -/
def choices? : (depth : Nat) → List Char → Option (List (List Char) × List Char)
  | _, [] => none
  | 0, '\x7d' :: rest => some ([[]], rest)
  | depth, c :: rest =>
    let onFirst (chars : List Char) (choices : List (List Char)) : List (List Char) :=
      match choices with
      | [] => [chars]
      | first :: more => (chars ++ first) :: more
    match c, rest with
    | '\\', d :: rest => (choices? depth rest).map fun (all, after) => (onFirst [c, d] all, after)
    | '\x7b', rest => (choices? (depth + 1) rest).map fun (all, after) => (onFirst [c] all, after)
    | '\x7d', rest => (choices? (depth - 1) rest).map fun (all, after) => (onFirst [c] all, after)
    | ',', rest =>
      (choices? depth rest).map fun (all, after) =>
        (if depth == 0 then [] :: all else onFirst [c] all, after)
    | c, rest => (choices? depth rest).map fun (all, after) => (onFirst [c] all, after)

/-- The first answer that is a match or ill-formed, or else that there is no match. -/
def firstMatch (answers : List Char → Option Bool) : List (List Char) → Option Bool
  | [] => some false
  | choice :: more =>
    match answers choice with
    | some false => firstMatch answers more
    | answer => answer

/-! ## Matching -/

/-- Whether an element stands for the empty text. -/
def matchesEmpty? : (fuel : Nat) → List Char → Option Bool
  | _, [] | _, ['*'] | _, ['*', '*'] => some true
  | fuel + 1, '\x7b' :: rest =>
    match choices? 0 rest with
    | none => none
    | some (choices, after) =>
      firstMatch (fun choice => matchesEmpty? fuel (choice ++ after)) choices
  | _, _ => some false

/-- The last star that was read: the element after it, and the name from the first character that
the star does not take. -/
abbrev Star := Option (List Char × List Char)

/-- Whether an element stands for a name; `star` is the last star before. -/
def matchFrom? : (fuel : Nat) → Star → (element name : List Char) → Option Bool
  | 0, _, _, _ => some false
  | fuel + 1, _, element, [] => matchesEmpty? (fuel + 1) element
  | fuel + 1, star, element, c :: name =>
    let retry : Option Bool := match star with
      | some (element, _ :: name) => matchFrom? fuel (some (element, name)) element name
      | _ => some false
    match element with
    | [] => retry
    | '*' :: '*' :: rest | '*' :: rest => matchFrom? fuel (some (rest, c :: name)) rest (c :: name)
    | '?' :: rest => matchFrom? fuel star rest name
    | '[' :: rest =>
      match takeClass c rest with
      | .illFormed => none
      | .refused => retry
      | .accepted rest => matchFrom? fuel star rest name
    | '\x7b' :: rest =>
      match choices? 0 rest with
      | none => none
      | some (choices, after) =>
        firstMatch
          (fun choice =>
            let chosen := choice ++ after
            let star := star.map fun (saved, name) =>
              (saved.take (saved.length - element.length) ++ chosen, name)
            matchFrom? fuel star chosen (c :: name))
          choices
    | ['\\'] => none
    | '\\' :: p :: rest => if p == c then matchFrom? fuel star rest name else retry
    | p :: rest => if p == c then matchFrom? fuel star rest name else retry

/-- Whether an element stands for a name, if it is well formed as far as it matters. -/
def matchesName? (element name : Bytes) : Option Bool :=
  let (element, name) := (element.chars, name.chars)
  let size := element.length + 1
  matchFrom? (size * size * size * (name.length + 2)) none element name

end Yurin.Glob
