import Yurin.Files.Path
import Yurin.Text.Integer
import Yurin.Text.Regex.Parser
import Yurin.Text.Rune

/-!
# File selectors

A selector says which files a section of an `.editorconfig` file is about: `*` is any text without a
slash, `**` any text, `?` one character but a slash, `[ab]` one of some characters, `{a,b}` one of
some texts and `{1..9}` one of some numbers. A selector without a slash is about names in every
directory below.

A selector is written as a regular expression (`Selector.write`), sign by sign. What stands in
brackets that are not closed before a slash is no class but the bracket and a piece of the
expression itself, and brackets that are never closed may take in what the other signs stand for; so
a selector can stand for more than it seems, or for no expression at all.
-/

namespace Yurin

namespace Selector

open RegexSign

/-! ## Reading ahead -/

/-- What stands before and after the first sign out of some that no backslash precedes, and that
sign. -/
def cutUnescaped? (signs : List Char) :
    (previous : Char) → List Char → Option (List Char × Char × List Char)
  | _, [] => none
  | previous, c :: rest =>
    if signs.contains c && previous != '\\' then some ([], c, rest)
    else (cutUnescaped? signs c rest).map fun (before, sign, after) => (c :: before, sign, after)

/-- The bounds in `low..high`. -/
def bounds? (inner : List Char) : Option (Int × Int) :=
  match Bytes.cutAt? (utf8 "..") (encodeChars inner) with
  | some (low, high) =>
    match decimalInteger low, decimalInteger high with
    | .ok low, .ok high => some (low, high)
    | _, _ => none
  | none => none

/-- How often a mark comes after a character other than a backslash, or at the start. A character
belongs to one of these places only. -/
def countMarks (mark : List Char) : (atStart : Bool) → List Char → Nat
  | _, [] => 0
  | atStart, c :: rest =>
    if atStart && mark.isPrefixOf (c :: rest) then
      1 + countMarks mark false (rest.drop (mark.length - 1))
    else if c != '\\' && mark.isPrefixOf rest then 1 + countMarks mark false (rest.drop mark.length)
    else countMarks mark false rest
termination_by _ text => text.length
decreasing_by all_goals simp; try omega

/-- Whether braces hold alternatives: as many are opened as closed, where doubled ones count once
more. -/
def isBalanced (text : List Char) : Bool :=
  countMarks ['\x7b'] true text + countMarks ['\x7b', '\x7b'] true text
    == countMarks ['\x7d'] true text + countMarks ['\x7d', '\x7d'] true text

/-! ## Writing the expression -/

/-- Whether a character has a meaning in expressions. -/
def isMeta (c : Char) : Bool :=
  ['\\', '.', '+', '*', '?', '(', ')', '|', '[', ']', '\x7b', '\x7d', '^', '$'].contains c

/-- The signs for a character as it is. -/
def literal (c : Char) : List RegexSign := ofChars (if isMeta c then ['\\', c] else [c])

/-- What has been read of a selector: the character before, the braces that are open, and whether a
backslash or an opening bracket still counts. -/
structure Context where
  previous : Char
  depth : Nat
  escaped : Bool
  inClass : Bool

/-- Before the first character. -/
def Context.initial : Context := ⟨'\x00', 0, false, false⟩

/-- The signs of the expression for a selector; `balanced` says whether braces hold alternatives. -/
def write : (fuel : Nat) → (balanced : Bool) → Context → List Char → List RegexSign
  | 0, _, _, _ => []
  | _ + 1, _, _, [] => []
  | fuel + 1, balanced, context, c :: rest =>
    let next := { context with previous := c }
    let more := write fuel balanced
    match c, rest with
    | '*', '*' :: rest => ofString ".*" ++ more next rest
    | '*', rest => ofString "[^/]*" ++ more next rest
    | '/', '*' :: '*' :: '/' :: rest => ofString "(?:/|/.*/)" ++ more next rest
    | '/', rest => .char '/' :: more next rest
    | '?', rest => ofString "[^/]" ++ more next rest
    | '[', rest =>
      if context.inClass then literal '[' ++ more next rest
      else match cutUnescaped? ['/', ']'] '[' rest with
        | some (inner, '/', rest) =>
          literal '[' ++ ofChars (inner ++ ['/']) ++ more { next with previous := '/' } rest
        | _ =>
          match rest with
          | '!' :: rest | '^' :: rest =>
            ofString "[^" ++ more { next with previous := '^', inClass := true } rest
          | rest => .char '[' :: more { next with inClass := true } rest
    | ']', rest =>
      if context.inClass && context.previous == '\\' then literal ']' ++ more next rest
      else .char ']' :: more { next with inClass := false } rest
    | '\x7b', rest =>
      match cutUnescaped? ['\x7d', ','] '\x7b' rest with
      | some (inner, '\x7d', rest) =>
        let next := { next with previous := '\x7d' }
        match bounds? inner with
        | some (low, high) => .number low high :: more next rest
        | none =>
          literal '\x7b' ++ write fuel (isBalanced inner) .initial inner ++ literal '\x7d'
            ++ more next rest
      | _ =>
        if balanced then ofString "(?:" ++ more { next with depth := context.depth + 1 } rest
        else literal '\x7b' ++ more next rest
    | '\x7d', rest =>
      match context.depth with
      | 0 => literal '\x7d' ++ more next rest
      | depth + 1 =>
        if context.escaped then .char '\x7d' :: more { next with escaped := false } rest
        else .char ')' :: more { next with depth } rest
    | ',', rest =>
      .char (if context.depth == 0 || context.escaped then ',' else '|') :: more next rest
    | '\\', rest =>
      if context.escaped then literal '\\' ++ more { next with escaped := false } rest
      else more { next with escaped := true } rest
    | c, rest => literal c ++ more { next with escaped := false } rest

/-- A selector from the directory of the settings. -/
def fromDirectory (selector : Bytes) : Bytes :=
  if Path.isRooted selector then selector
  else if selector.contains Path.slash then Path.slash :: selector
  else utf8 "/**/" ++ selector

/-- The expression for the names that a selector is about. -/
def regex? (selector : Bytes) : Option Regex :=
  let chars := (fromDirectory selector).chars
  Regex.parse? (.char '^' :: write chars.length (isBalanced chars) .initial chars ++ [.char '$'])

end Selector

/-- Whether a selector is about a file, given by its name from the directory of the settings, with a
slash in front. There is no answer when the selector stands for no expression. -/
def selects? (selector name : Bytes) : Option Bool :=
  (Selector.regex? selector).map fun r => r.occursIn name.chars

end Yurin
