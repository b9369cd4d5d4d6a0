import Yurin.Files.Glob.Element
import Yurin.Files.Glob.Pattern
import Yurin.Files.Tree

/-!
# Glob patterns

A pattern is searched in a file tree from its end: the files that its last element stands for, in
the directories that the rest stands for. An element `**` stands for any number of directories.
Braces hold alternatives, which may contain slashes; each of them makes a pattern of its own, behind
the directories that were found before the braces. The part of a pattern before its first special
character is the directory where the search begins.

The names found are those of files. An element is read only where there is a name to match it, so an
ill-formed one can go unnoticed; where it is noticed, the whole search fails.
-/

namespace Yurin

/-- A search in a file tree. -/
structure Glob where
  tree : FileTree
  /-- The directory where it begins. -/
  base : Bytes
  /-- Whether names found earlier count as directories to search in. -/
  cumulative : Bool

namespace Glob

/-! ## The tree below the base -/

/-- The place in the tree of a name below the base. A name that leads out of the base has none. -/
def place? (g : Glob) (name : Bytes) : Option Bytes :=
  if g.base == Path.here then some name
  else
    let base := Path.clean g.base
    let place := Path.join [base, name]
    if base.isPrefixOf place then some place else none

/-- A name without a slash at its end. -/
def withoutSlash (name : Bytes) : Bytes :=
  if 1 < name.length && name.getLast? == some Path.slash then name.dropLast else name

/-- Whether there is something with a name: `some true` for a directory. -/
def kind? (g : Glob) (name : Bytes) : Option Bool :=
  (g.place? (withoutSlash name)).bind fun place =>
    if g.tree.isDirectory place then some true
    else if g.tree.isFile place then some false
    else none

/-- The names in a directory that lead to directories, and the other names. -/
def listing (g : Glob) (directory : Bytes) : List Bytes × List Bytes :=
  match g.place? directory with
  | some place => g.tree.listing place
  | none => ([], [])

/-- A directory and all directories below it, up to a depth. -/
def directoriesBelow (g : Glob) : (depth : Nat) → Bytes → List Bytes
  | 0, directory => [directory]
  | depth + 1, directory =>
    directory :: (g.listing directory).1.flatMap fun name =>
      directoriesBelow g depth (Path.join [directory, name])

/-- The files in a directory. -/
def filesIn (g : Glob) (directory : Bytes) : List Bytes :=
  (g.listing directory).2.map fun name => Path.join [directory, name]

/-! ## Searching -/

/-- The names below a directory that an element stands for: files, or else directories. -/
def searchIn (g : Glob) (files : Bool) (directory element : Bytes) : Option (List Bytes) :=
  if element.isEmpty then
    some (if !files && g.kind? directory == some true then [directory] else [])
  else if element == utf8 "**" then
    let directories := if g.kind? directory == some true then
        g.directoriesBelow g.tree.depthBound directory
      else []
    some (if files then directories.flatMap g.filesIn else directories)
  else do
    let (directories, others) := g.listing directory
    let kept ← ((directories ++ others).filterM (matchesName? element) : Option (List Bytes))
    let names := kept.filter ((if files then others else directories).contains ·)
    return names.map fun name => Path.join [directory, name]

/-- The pattern for one alternative, below a directory. -/
def chosen (directory before alternative after : Bytes) : Bytes :=
  let text := before ++ alternative ++ after
  if directory.isEmpty || directory == Path.here then text else directory ++ [Path.slash] ++ text

/-- The names found so far and those that a pattern stands for: files, or else directories. -/
def search (g : Glob) : (fuel : Nat) → (files : Bool) → (found : List Bytes) → (pattern : Bytes) →
    Option (List Bytes)
  | 0, _, found, _ => some found
  | fuel + 1, files, found, pattern =>
    let directoriesOf (pattern : Bytes) : Option (List Bytes) :=
      search g fuel false (if g.cumulative then found else []) pattern
    match shape pattern with
    | .name name =>
      let counts := match g.kind? name with
        | none => false
        | some isDirectory => !(files && isDirectory)
      some (if counts then found ++ [name] else found)
    | .below directory element => (g.searchIn files directory element).map (found ++ ·)
    | .belowMatches pattern element => do
      (← directoriesOf pattern).foldlM
        (fun found directory => (g.searchIn files directory element).map (found ++ ·)) found
    | .choice pattern before inner after => do
      let directories ← match pattern with
        | none => some [[]]
        | some pattern => directoriesOf pattern
      let choices := alternatives (inner.length + 1) inner
      directories.foldlM
        (fun found directory =>
          choices.foldlM
            (fun found choice => search g fuel files found (chosen directory before choice after))
            found)
        found

/-- A bound on the length of the names below the base, in bytes. -/
def nameBound (g : Glob) : Nat :=
  let longest := (g.tree.entries.map fun (location, _) =>
    total (location.map fun element => element.length + 1)).foldl max 0
  (g.tree.depthBound + 1) * (longest + 1)

/-- A name without `./` at its start. -/
def withoutHere (name : Bytes) : Bytes := (Bytes.dropHead? (utf8 "./") name).getD name

/-- The files that a pattern stands for, or nothing when it is ill-formed. -/
def run? (tree : FileTree) (pattern : Bytes) : Option (List Bytes) :=
  let (base, rest) := splitBase pattern
  if isWellFormed .outside 0 rest then
    let g : Glob := ⟨tree, base, !hasInnerStars rest⟩
    (g.search ((rest.length + 1) * (g.nameBound + 1)) true [] rest).map fun names =>
      names.map fun name => withoutHere (if base == Path.here then name else Path.join [base, name])
  else none

end Glob

end Yurin
