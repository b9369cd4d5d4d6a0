import Yurin.Files.Glob
import Yurin.Text.Quoted

/-!
# Finding source files

Sources are named by glob patterns. A pattern that names a directory stands for every file below it
with one of some extensions. The files found are in byte order, each once, and a pattern that finds
nothing is an error.
-/

namespace Yurin

/-- Why sources were not found. -/
inductive FindError
  | noMatch (pattern : Bytes)
  | badPattern (pattern : Bytes)
  deriving DecidableEq, Repr

/-- The text of a find error. -/
def FindError.message : FindError → Bytes
  | .noMatch pattern => utf8 "no files match " ++ quoted pattern
  | .badPattern pattern => utf8 "matching " ++ quoted pattern ++ utf8 ": syntax error in pattern"

/-- The matches of all patterns, pattern after pattern, up to the first that fails or has none. -/
def matchesOf (expand : Bytes → Except FindError (List Bytes)) :
    List Bytes → Except FindError (List Bytes)
  | [] => .ok []
  | pattern :: rest => do
    let matched ← expand pattern
    if matched.isEmpty then throw (.noMatch pattern)
    return matched ++ (← matchesOf expand rest)

/-- A sorted list with equal neighbours made one. -/
def mergeEqual : List Bytes → List Bytes
  | [] => []
  | [path] => [path]
  | path :: next :: rest =>
    if path = next then mergeEqual (next :: rest) else path :: mergeEqual (next :: rest)

/-- The files that patterns stand for, in byte order and each once. -/
def findWith (expand : Bytes → Except FindError (List Bytes)) (patterns : List Bytes) :
    Except FindError (List Bytes) := do
  return mergeEqual ((← matchesOf expand patterns).mergeSort Bytes.le)

/-- A search for sources in a tree. -/
structure Finder where
  tree : FileTree
  extensions : List Bytes

namespace Finder

/-- The extensions of sources. -/
def defaultExtensions : List Bytes := [utf8 ".yu"]

/-- The search for files with the extension of sources. -/
def ofTree (tree : FileTree) : Finder := ⟨tree, defaultExtensions⟩

/-- The files that a glob stands for. -/
def glob (f : Finder) (pattern : Bytes) : Except FindError (List Bytes) :=
  match Glob.run? f.tree pattern with
  | some names => .ok names
  | none => .error (.badPattern pattern)

/-- The files that one pattern stands for: those with an extension below a directory, or the matches
of a glob. No extensions stand for the default ones. -/
def expand (f : Finder) (pattern : Bytes) : Except FindError (List Bytes) :=
  if f.tree.isDirectory pattern then
    let extensions := if f.extensions.isEmpty then defaultExtensions else f.extensions
    return (← extensions.mapM fun extension =>
      f.glob (Path.join [pattern, utf8 "**", utf8 "*" ++ extension])).flatten
  else f.glob pattern

/-- The sources that patterns stand for. -/
def find (f : Finder) (patterns : List Bytes) : Except FindError (List Bytes) :=
  findWith f.expand patterns

end Finder

end Yurin
