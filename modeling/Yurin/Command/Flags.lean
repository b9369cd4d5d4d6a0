import Yurin.Text.Integer
import Yurin.Text.Quoted

/-!
# Flags

A command line mixes flags and arguments. A flag is `--name=value`, `--name value`, or `--name`
alone for a truth value; `--` ends the flags. The last value of a flag counts. Every command has the
flag `--help`, or `-h`.
-/

namespace Yurin

/-- What values a flag takes. -/
inductive FlagKind
  | text | truth | number
  deriving DecidableEq, Repr

/-- A flag of a command. -/
structure Flag where
  name : String
  kind : FlagKind
  deriving DecidableEq, Repr

/-- Why a command line cannot be read. -/
inductive FlagError
  | badSyntax (argument : Bytes)
  | unknown (name : Bytes)
  | unknownLetter (letter : UInt8) (argument : Bytes)
  | needsValue (argument : Bytes)
  | badTruth (value : Bytes) (flag : Bytes)
  | badNumber (value : Bytes) (flag : Bytes) (fault : IntegerFault)
  deriving DecidableEq, Repr

/-- A byte, taken as a character, in single quotes. -/
def quotedLetter (b : UInt8) : Bytes :=
  if b = Ascii.quote then utf8 "'\"'"
  else if b = Ascii.apostrophe then utf8 "'\\''"
  else utf8 "'" ++ quotedRune (.valid b.toNat, encodeRune b.toNat) ++ utf8 "'"

/-- The text of a flag error. -/
def FlagError.message : FlagError → Bytes
  | .badSyntax argument => utf8 "bad flag syntax: " ++ argument
  | .unknown name => utf8 "unknown flag: --" ++ name
  | .unknownLetter letter argument =>
    utf8 "unknown shorthand flag: " ++ quotedLetter letter ++ utf8 " in " ++ argument
  | .needsValue argument => utf8 "flag needs an argument: " ++ argument
  | .badTruth value flag =>
    utf8 "invalid argument " ++ quoted value ++ utf8 " for " ++ quoted flag
      ++ utf8 " flag: strconv.ParseBool: parsing " ++ quoted value ++ utf8 ": invalid syntax"
  | .badNumber value flag fault =>
    utf8 "invalid argument " ++ quoted value ++ utf8 " for " ++ quoted flag
      ++ utf8 " flag: strconv.ParseInt: parsing " ++ quoted value ++ utf8 ": " ++ utf8 fault.message

/-- The truth value that a text stands for. -/
def truthOf? (text : Bytes) : Option Bool :=
  if ["1", "t", "T", "TRUE", "true", "True"].any fun t => utf8 t == text then some true
  else if ["0", "f", "F", "FALSE", "false", "False"].any fun t => utf8 t == text then some false
  else none

/-- A command line: the values of flags in order, and the arguments. -/
structure CommandLine where
  values : List (String × Bytes)
  arguments : List Bytes
  deriving DecidableEq, Repr

namespace CommandLine

/-- The flag that asks for help. -/
def help : Flag := ⟨"help", .truth⟩

/-- How a flag is called in messages. -/
def callOf (flag : Flag) : Bytes :=
  if flag = help then utf8 "-h, --help" else utf8 "--" ++ utf8 flag.name

/-- Checks a value of a flag. -/
def check (flag : Flag) (value : Bytes) : Except FlagError Unit :=
  match flag.kind with
  | .text => .ok ()
  | .truth => if (truthOf? value).isSome then .ok () else .error (.badTruth value (callOf flag))
  | .number =>
    match announcedInteger value with
    | .ok _ => .ok ()
    | .error fault => .error (.badNumber value (callOf flag) fault)

/-- Adds a value of a flag. -/
def set (line : CommandLine) (flag : Flag) (value : Bytes) : Except FlagError CommandLine := do
  check flag value
  return { line with values := line.values ++ [(flag.name, value)] }

/-- The letter that asks for help, `h`. -/
def helpLetter : UInt8 := 104

/-- Reads letters after a single hyphen. -/
def letters : CommandLine → Bytes → Except FlagError CommandLine
  | line, [] => .ok line
  | line, letter :: rest =>
    if letter != helpLetter then .error (.unknownLetter letter (Ascii.hyphen :: letter :: rest))
    else match rest with
      | Ascii.equals :: b :: value => line.set help (b :: value)
      | _ => do letters (← line.set help (utf8 "true")) rest

/-- Reads a command line from its words. -/
def readFrom (flags : List Flag) : CommandLine → List Bytes → Except FlagError CommandLine
  | line, [] => .ok line
  | line, word :: rest =>
    match word with
    | Ascii.hyphen :: Ascii.hyphen :: [] => .ok { line with arguments := line.arguments ++ rest }
    | Ascii.hyphen :: Ascii.hyphen :: name =>
      if name.head? == some Ascii.hyphen || name.head? == some Ascii.equals then
        .error (.badSyntax word)
      else
        let (name, given) := match Bytes.cut? Ascii.equals name with
          | some (name, value) => (name, some value)
          | none => (name, none)
        match (flags ++ [help]).find? fun f => utf8 f.name == name with
        | none => .error (.unknown name)
        | some flag =>
          match given with
          | some value => do readFrom flags (← line.set flag value) rest
          | none =>
            if flag.kind = .truth then do readFrom flags (← line.set flag (utf8 "true")) rest
            else match rest with
              | [] => .error (.needsValue word)
              | value :: rest => do readFrom flags (← line.set flag value) rest
    | Ascii.hyphen :: letter :: more => do readFrom flags (← line.letters (letter :: more)) rest
    | _ => readFrom flags { line with arguments := line.arguments ++ [word] } rest

/-- Reads a command line. -/
def read (flags : List Flag) (words : List Bytes) : Except FlagError CommandLine :=
  readFrom flags ⟨[], []⟩ words

/-- The last value of a flag. -/
def value? (line : CommandLine) (name : String) : Option Bytes :=
  (line.values.reverse.find? (·.1 == name)).map (·.2)

/-- The text of a flag. -/
def textOf (line : CommandLine) (name fallback : String) : Bytes :=
  (line.value? name).getD (utf8 fallback)

/-- Whether a truth flag is on. -/
def isOn (line : CommandLine) (name : String) : Bool :=
  ((line.value? name).bind truthOf?).getD false

end CommandLine

end Yurin
