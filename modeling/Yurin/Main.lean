import Yurin.Command

/-!
# The program

Reads the words of the command line, collects the names below the working directory and the files
that the command reads, runs the command, and prints its output or, on standard error, its failure.
-/

namespace Yurin

/-- The bytes of a string. -/
def bytesOf (s : String) : Bytes := s.toUTF8.toList

/-- A text as a string, if it is valid UTF-8. -/
def stringOf? (text : Bytes) : Option String := String.fromUTF8? ⟨text.toArray⟩

/-- The names of files and directories below a directory, as an empty tree. -/
partial def namesBelow (above : Bytes) (entries : Array IO.FS.DirEntry) :
    IO (List (Bytes × Entry)) := do
  let mut found := []
  for entry in entries do
    let name := above ++ bytesOf entry.fileName
    if ← entry.path.isDir then
      let below ← try namesBelow (name ++ [Path.slash]) (← entry.path.readDir) catch _ => pure []
      found := (name, .directory) :: below ++ found
    else
      found := (name, .file []) :: found
  return found

/-- A file as an entry; one that cannot be read is a link that leads nowhere. -/
def contentOf (path : Bytes) : IO (Option (Bytes × Entry)) := do
  match stringOf? path with
  | none => return none
  | some name =>
    try return some (path, .file (← IO.FS.readBinFile name).toList)
    catch _ => return some (path, .link (utf8 "/nowhere"))

/-- The tree of the working directory, with the content of the files that a command reads. -/
def surroundingTree (command : Command) (words : List Bytes) : IO FileTree := do
  let names ← namesBelow [] (← (← IO.currentDir).readDir)
  let wanted := command.reads (.ofNamed .disk names) words
  let directories := names.filter fun (_, entry) => entry == .directory
  let known := wanted.filter fun path =>
    names.any (·.1 == Path.clean path) && !directories.any (·.1 == Path.clean path)
  let outside := wanted.filter Path.isRooted
  let contents ← (known ++ outside).mapM contentOf
  return .ofNamed .disk (contents.filterMap id ++ names)

/-- Prints a failure. -/
def printFailure (message : Bytes) : IO UInt32 := do
  let stderr ← IO.getStderr
  stderr.write ⟨(utf8 "failed to execute command: " ++ message ++ [lineFeed]).toArray⟩
  return 1

/-- Runs a command on the working directory. -/
def runCommand (command : Command) (words : List Bytes) : IO UInt32 := do
  let stdout ← IO.getStdout
  let surroundings : Surroundings :=
    ⟨← surroundingTree command words, ← stdout.isTty, false⟩
  let (written, failure) := (command.run surroundings words).run none
  stdout.write ⟨written.toArray⟩
  stdout.flush
  match failure with
  | none => return 0
  | some e => printFailure e.message

end Yurin

open Yurin in
/-- The program: a command and its words. -/
def main (arguments : List String) : IO UInt32 := do
  match arguments.map bytesOf with
  | [] => printFailure (utf8 "want a command: highlight, check, skeleton or tokens")
  | name :: words =>
    match Command.ofName? name with
    | some command => runCommand command words
    | none => printFailure (utf8 "unknown command " ++ quoted name)
