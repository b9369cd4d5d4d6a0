import Yurin.Command.Check
import Yurin.Command.Highlight
import Yurin.Command.Inspect

/-!
# The command line

The four commands by name. A command that is asked for help does nothing else.
-/

namespace Yurin

/-- The commands. -/
inductive Command
  | highlight | check | skeleton | tokens
  deriving DecidableEq, Repr

namespace Command

/-- All commands. -/
def all : List Command := [.highlight, .check, .skeleton, .tokens]

/-- The name of a command. -/
def name : Command → String
  | .highlight => "highlight"
  | .check => "check"
  | .skeleton => "skeleton"
  | .tokens => "tokens"

/-- The command with a name. -/
def ofName? (name : Bytes) : Option Command := all.find? fun c => utf8 c.name == name

/-- The flags of a command. -/
def flags : Command → List Flag
  | .highlight => HighlightCommand.flags
  | .check => CheckCommand.flags
  | .skeleton => SkeletonCommand.flags
  | .tokens => TokensCommand.flags

/-- Runs a command with the words that follow its name. -/
def run (c : Command) (s : Surroundings) (words : List Bytes) : Output CommandError :=
  .ofExcept ((CommandLine.read c.flags words).mapError .flags) fun line =>
    if line.isOn CommandLine.help.name then .nothing
    else match c with
      | .highlight => HighlightCommand.run s line
      | .check => CheckCommand.run s line
      | .skeleton => SkeletonCommand.run s line
      | .tokens => TokensCommand.run s line

/-- The files that a command is going to read when a tree has some names. For flags that cannot be
read there are none. -/
def reads (c : Command) (names : FileTree) (words : List Bytes) : List Bytes :=
  match CommandLine.read c.flags words with
  | .error _ => []
  | .ok line =>
    match c with
    | .highlight => line.textOf "theme" "" :: line.arguments
    | .skeleton | .tokens => line.arguments
    | .check =>
      let files := ((Finder.ofTree names).find line.arguments).toOption.getD []
      files ++ files.flatMap fun path => (settingsPlaces (Path.cleanElements path)).map (·.1)

end Command

end Yurin
