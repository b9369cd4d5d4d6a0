import Yurin.Text.Ascii
import Yurin.Text.Rune

/-!
# Settings files

A settings file has keys with values, in sections; the keys before the first section are those of
the section `DEFAULT`. A section that comes twice is one section, in its first place, and a key that
comes twice has its last value. A section whose name has a period also has the keys of the section
that is named by what stands before it, where it does not set them itself.

A key or a value may be quoted, a quoted value may go on for several lines, and a backslash at the
end of a line lets the value go on in the next. The lines are read one by one (`Reading.step`); what
a line has begun is kept until a later one ends it. A file with one wrong line has no settings at
all.
-/

namespace Yurin

/-- A section of a settings file. -/
structure Section where
  name : Bytes
  keys : List (Bytes × Bytes)
  deriving DecidableEq, Repr

/-- The sections of a settings file in order. -/
abbrev Settings := List Section

namespace Settings

/-- The section of the keys that stand before every section. -/
def defaultName : Bytes := utf8 "DEFAULT"

/-- The section with a name; an empty name is that of the first section. -/
def section? (s : Settings) (name : Bytes) : Option Section :=
  s.find? (·.name == if name.isEmpty then defaultName else name)

/-- The settings with a section of a name, which is added at the end if there is none. -/
def ensure (s : Settings) (name : Bytes) : Settings :=
  if (s.section? name).isSome then s else s ++ [⟨name, []⟩]

/-- The settings with a value for a key in a section. -/
def set (s : Settings) (name key value : Bytes) : Settings :=
  s.map fun part =>
    if part.name == name then { part with keys := part.keys.filter (·.1 != key) ++ [(key, value)] }
    else part

/-! ## Keys -/

/-- The signs between a key and its value. -/
def isDelimiter (b : UInt8) : Bool := b == Ascii.equals || b == Ascii.colon

/-- What stands after the first sign between a key and its value. -/
def afterDelimiter? (text : Bytes) : Option Bytes :=
  match text.dropWhile (!isDelimiter ·) with
  | [] => none
  | _ :: rest => some rest

/-- Three double quotes. -/
def tripleQuote : Bytes := [Ascii.quote, Ascii.quote, Ascii.quote]

/-- The quote at the start of a key. -/
def keyQuote? (line : Bytes) : Option Bytes :=
  if tripleQuote.isPrefixOf line && 6 < line.length then some tripleQuote
  else match line with
    | Ascii.quote :: _ => some [Ascii.quote]
    | Ascii.backquote :: _ => some [Ascii.backquote]
    | _ => none

/-- The key of a line and the text of its value. A quoted key ends at the next such quote. -/
def keyAndText? (line : Bytes) : Option (Bytes × Bytes) := do
  let (key, text) ← match keyQuote? line with
    | some quote =>
      (Bytes.cutAt? quote (line.drop quote.length)).bind fun (key, rest) =>
        (afterDelimiter? rest).map fun text => (key, text)
    | none => (afterDelimiter? line).map fun text => (line.takeWhile (!isDelimiter ·), text)
  let key := Bytes.trim key
  if key.isEmpty then none else return (key, text)

/-! ## Values -/

/-- What stands before the last occurrence of a text. -/
def beforeLast? (mark text : Bytes) : Option Bytes :=
  (Bytes.cutAt? mark.reverse text.reverse).map (·.2.reverse)

/-- The quote at the start of a value. -/
def valueQuote? (text : Bytes) : Option Bytes :=
  if tripleQuote.isPrefixOf text && 3 < text.length then some tripleQuote
  else if text.head? == some Ascii.backquote then some [Ascii.backquote]
  else none

/-- A value without the comment at its end. -/
def withoutComment (value : Bytes) : Bytes :=
  value.takeWhile fun b => b != Ascii.hash && b != Ascii.semicolon

/-- Whether a text stands between two signs and has no such sign inside. -/
def isSurrounded (sign : UInt8) (text : Bytes) : Bool :=
  2 ≤ text.length && text.head? == some sign && text.getLast? == some sign && text.count sign == 2

/-- A text without the quotes around it. -/
def unquoted (text : Bytes) : Bytes :=
  if isSurrounded Ascii.quote text || isSurrounded Ascii.apostrophe text then
    (text.drop 1).dropLast
  else text

/-- A value as far as its lines have been read. -/
inductive Value
  | complete (value : Bytes)
  /-- A quoted value whose closing quote has not come. -/
  | quoted (quote sofar : Bytes)
  /-- A value that goes on in the next line. -/
  | continued (sofar : Bytes)
  deriving DecidableEq, Repr

namespace Value

/-- The value that begins in the rest of a line. A quoted value ends at the last such quote of the
line; another one loses the blanks and the quotes around it and the comment at its end. -/
def start (text : Bytes) : Value :=
  let text := text.drop (Bytes.leadingSpace text)
  match valueQuote? text with
  | some quote =>
    match beforeLast? quote (text.drop quote.length) with
    | some value => .complete value
    | none => .quoted quote (text.drop quote.length)
  | none =>
    let text := Bytes.trimEnd text
    if text.getLast? == some Ascii.backslash then .continued text.dropLast
    else .complete (unquoted (Bytes.trimEnd (withoutComment text)))

/-- The value with one more line. -/
def extend (line : Bytes) : Value → Value
  | .complete value => .complete value
  | .quoted quote sofar =>
    match beforeLast? quote line with
    | some value => .complete (sofar ++ value)
    | none => .quoted quote (sofar ++ line)
  | .continued sofar =>
    let next := Bytes.trim line
    if next.getLast? == some Ascii.backslash then .continued (sofar ++ next.dropLast)
    else .complete (sofar ++ next)

end Value

/-! ## Lines -/

/-- How far a file has been read: the section and, if a value has not ended, its key. -/
structure Reading where
  settings : Settings
  current : Bytes
  open_ : Option (Bytes × Value)
  deriving DecidableEq, Repr

namespace Reading

/-- Before the first line. -/
def initial : Reading := ⟨[⟨defaultName, []⟩], defaultName, none⟩

/-- With a value for a key, which is set once it is complete. -/
def put (r : Reading) (key : Bytes) : Value → Reading
  | .complete value => { r with settings := r.settings.set r.current key value, open_ := none }
  | value => { r with open_ := some (key, value) }

/-- Reads a line at which no value is open: blank, a comment, the head of a section, or a key with
its value. The head of a section ends at its last bracket. -/
def begin? (r : Reading) (line : Bytes) : Option Reading :=
  match line.drop (Bytes.leadingSpace line) with
  | [] => some r
  | Ascii.hash :: _ | Ascii.semicolon :: _ => some r
  | Ascii.leftSquare :: inner => do
    let (name, _) ← Bytes.cutLast? Ascii.rightSquare inner
    if name.isEmpty then none
    else return { r with settings := r.settings.ensure name, current := name }
  | line => (keyAndText? line).map fun (key, text) => r.put key (.start text)

/-- Reads a line. -/
def step (r : Reading) (line : Bytes) : Option Reading :=
  match r.open_ with
  | some (key, value) => some (r.put key (value.extend line))
  | none => r.begin? line

/-- The settings after the last line, which must not stand inside a quoted value. -/
def finish (r : Reading) : Option Settings :=
  match r.open_ with
  | none => some r.settings
  | some (_, .quoted ..) => none
  | some (key, .continued value) | some (key, .complete value) =>
    some (r.settings.set r.current key value)

end Reading

/-- The lines of a text, each with the line feed that ends it. -/
def linesOf : Bytes → List Bytes
  | [] => [[]]
  | b :: rest =>
    if b = lineFeed then [b] :: linesOf rest
    else match linesOf rest with
      | [] => [[b]]
      | line :: lines => (b :: line) :: lines

/-- The marks of byte order that a file may begin with. -/
def byteOrderMarks : List Bytes := [[0xEF, 0xBB, 0xBF], [0xFE, 0xFF], [0xFF, 0xFE]]

/-- The settings in a text, if every line is one. -/
def parse (text : Bytes) : Option Settings :=
  let text := (byteOrderMarks.findSome? (Bytes.dropHead? · text)).getD text
  ((linesOf text).foldlM Reading.step Reading.initial).bind Reading.finish

/-! ## Looking up -/

/-- The value of a key in a section, or in those that it takes keys from: at most `depth` of them,
with the section that sets it. -/
def lookup? (s : Settings) (key : Bytes) : (depth : Nat) → (name : Bytes) → Option (Section × Bytes)
  | depth, name =>
    let part := s.section? name
    match part, part.bind fun part => part.keys.lookup key with
    | some part, some value => some (part, value)
    | _, _ =>
      match depth, Bytes.cutLast? Ascii.period ((part.map (·.name)).getD name) with
      | depth + 1, some (before, _) => s.lookup? key depth before
      | _, _ => none

/-- The key that the first reference in a value names. A reference is written `%(key)s`. -/
def reference? : Bytes → Option Bytes
  | [] => none
  | b :: rest =>
    let key := match b :: rest with
      | Ascii.percent :: Ascii.leftRound :: inner =>
        match Bytes.cut? Ascii.rightRound inner with
        | some (key, 0x73 :: _) => if key.isEmpty then none else some key
        | _ => none
      | _ => none
    key.or (reference? rest)

/-- A text with every occurrence of another one replaced; at most `fuel` of them. -/
def replaceAll (mark value : Bytes) : (fuel : Nat) → Bytes → Bytes
  | 0, text => text
  | fuel + 1, text =>
    match Bytes.cutAt? mark text with
    | none => text
    | some (before, after) => before ++ value ++ replaceAll mark value fuel after

/-- A reference to a key, as it is written. -/
def referenceTo (key : Bytes) : Bytes := utf8 "%(" ++ key ++ utf8 ")s"

/-- The value that a reference stands for, in the value of a key: that of another key of its
section, or of one of the first section. -/
def referred? (s : Settings) (part : Section) (key name : Bytes) : Option Bytes :=
  match s.lookup? name part.name.length part.name with
  | some (other, value) =>
    if other.name == part.name && name == key then
      (s.lookup? name 0 defaultName).map (·.2)
    else some value
  | none => (s.lookup? name 0 defaultName).map (·.2)

/-- A value with the references in it replaced, one key after the other and at most `fuel` of them.
-/
def resolveWith (s : Settings) (part : Section) (key : Bytes) : (fuel : Nat) → Bytes → Bytes
  | 0, value => value
  | fuel + 1, value =>
    match reference? value with
    | none => value
    | some name =>
      match s.referred? part key name with
      | none => value
      | some other =>
        resolveWith s part key fuel (replaceAll (referenceTo name) other value.length value)

/-- The most references that are replaced in a value. -/
def maxReferences : Nat := 99

/-- A value with the references in it replaced. -/
def resolve (s : Settings) (part : Section) (key value : Bytes) : Bytes :=
  s.resolveWith part key maxReferences value

end Settings

end Yurin
