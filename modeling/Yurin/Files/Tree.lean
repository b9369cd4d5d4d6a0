import Yurin.Files.Path

/-!
# File trees

A file tree holds files, directories and symbolic links. It stands for a directory on disk, whose
names are followed element by element and through links, or for a store in memory, whose names are
cleaned first and which has no links. Only what the tree holds exists: a name that leaves it is
missing.
-/

namespace Yurin

/-- What a tree holds under a name. -/
inductive Entry
  | file (content : Bytes)
  | directory
  | link (target : Bytes)
  deriving DecidableEq, Repr

/-- Where a tree is kept. -/
inductive Storage
  | disk | memory
  deriving DecidableEq, Repr

/-- Why a name leads to nothing that can be read. -/
inductive PathFault
  | missing | notDirectory | tooManyLinks | isDirectory
  deriving DecidableEq, Repr

/-- A failed attempt to read a file. -/
structure ReadError where
  storage : Storage
  path : Bytes
  fault : PathFault
  deriving DecidableEq, Repr

namespace ReadError

/-- The text of a fault. -/
def faultText : Storage → PathFault → String
  | .disk, .missing => "no such file or directory"
  | .memory, .missing => "file does not exist"
  | _, .notDirectory => "not a directory"
  | _, .tooManyLinks => "too many levels of symbolic links"
  | _, .isDirectory => "is a directory"

/-- The text of a read error. A directory can be opened but not read. -/
def message (e : ReadError) : Bytes :=
  (match e.fault with
    | .isDirectory => utf8 "read "
    | _ => utf8 "open ") ++ e.path ++ utf8 ": " ++ utf8 (faultText e.storage e.fault)

end ReadError

/-- Where an entry is: the elements of its name from the top of the tree. Names from the root begin
with an empty element. -/
abbrev Location := List Bytes

/-- A tree of files. Directories above an entry need no entry of their own. -/
structure FileTree where
  storage : Storage
  entries : List (Location × Entry)
  deriving Repr

namespace FileTree

/-- The location of the root. -/
def root : Location := [[]]

/-- Where names of a kind start: at the root or at the top of the tree. -/
def startOf (path : Bytes) : Location := if Path.isRooted path then root else []

/-- The location that a name spells out. -/
def locationOf (path : Bytes) : Location :=
  startOf path ++ Path.cleanElements path

/-- The tree with entries under some names. -/
def ofNamed (storage : Storage) (entries : List (Bytes × Entry)) : FileTree :=
  ⟨storage, entries.map fun (path, entry) => (locationOf path, entry)⟩

/-- Whether a location is the top of the tree; in memory the root is the top, too. -/
def isTop (t : FileTree) (location : Location) : Bool :=
  location.isEmpty || (t.storage == .memory && location == root)

/-- What stands at a location. -/
def holding? (t : FileTree) (location : Location) : Option Entry :=
  match t.entries.lookup location with
  | some entry => some entry
  | none =>
    if t.isTop location || t.entries.any fun (other, _) => location.isPrefixOf other then
      some .directory
    else none

/-! ## Following names -/

/-- How far a walk got: to its end, to a fault, or to a link. -/
inductive Walk
  | arrived (location : Location)
  | failed (fault : PathFault)
  | follow (location : Location) (rest : List Bytes)

/-- Goes from a directory along some elements, up to the first link. -/
def walk (t : FileTree) (location : Location) : List Bytes → Walk
  | [] => .arrived location
  | element :: rest =>
    if element.isEmpty || element == Path.here then t.walk location rest
    else if element == Path.above then
      if location.isEmpty then .failed .missing
      else if location == root then t.walk root rest
      else t.walk location.dropLast rest
    else
      let next := location ++ [element]
      match t.holding? next with
      | none => .failed .missing
      | some .directory => t.walk next rest
      | some (.file _) => if rest.isEmpty then .arrived next else .failed .notDirectory
      | some (.link target) =>
        .follow (if Path.isRooted target then root else location) (Path.elements target ++ rest)

/-- Goes from a directory along some elements, through at most `links` links. -/
def resolveFrom (t : FileTree) (links : Nat) (location : Location) (elements : List Bytes) :
    Except PathFault Location :=
  match t.walk location elements with
  | .arrived location => .ok location
  | .failed fault => .error fault
  | .follow location rest =>
    match links with
    | 0 => .error .tooManyLinks
    | links + 1 => t.resolveFrom links location rest

/-- The most links on the way to a file. -/
def maxLinks : Nat := 40

/-- The location that a name leads to. -/
def resolve (t : FileTree) (path : Bytes) : Except PathFault Location :=
  match t.storage with
  | .disk =>
    if path.isEmpty then .error .missing
    else t.resolveFrom maxLinks (startOf path) (Path.elements path)
  | .memory =>
    let location := locationOf path
    let location := if location == [Path.above] then [] else location
    if (t.holding? location).isSome then .ok location else .error .missing

/-- Whether a name leads to a directory. -/
def isDirectory (t : FileTree) (path : Bytes) : Bool :=
  match t.resolve path with
  | .ok location => t.holding? location == some .directory
  | .error _ => false

/-- Whether a name leads to a file. -/
def isFile (t : FileTree) (path : Bytes) : Bool :=
  match t.resolve path with
  | .ok location => (t.holding? location).isSome && t.holding? location != some .directory
  | .error _ => false

/-- The content of a file. -/
def read (t : FileTree) (path : Bytes) : Except ReadError Bytes :=
  match t.resolve path with
  | .error fault => .error ⟨t.storage, path, fault⟩
  | .ok location =>
    match t.holding? location with
    | some (.file content) => .ok content
    | some .directory => .error ⟨t.storage, path, .isDirectory⟩
    | _ => .error ⟨t.storage, path, .missing⟩

/-! ## Listing directories -/

/-- The names directly below a location, each once. -/
def namesBelow (t : FileTree) (location : Location) : List Bytes :=
  (t.entries.filterMap fun (other, _) =>
    if location.isPrefixOf other then (other.drop location.length).head? else none).eraseDups.filter
      (!·.isEmpty)

/-- The entries of a directory, with their names. The top of a store in memory has both the entries
from the root and those that are named from nowhere. -/
def list (t : FileTree) (path : Bytes) : List (Bytes × Option Entry) :=
  match t.resolve path with
  | .error _ => []
  | .ok location =>
    if t.holding? location != some .directory then []
    else
      let tops := if t.isTop location && t.storage == .memory then [[], root] else [location]
      tops.flatMap fun location =>
        (t.namesBelow location).map fun name => (name, t.holding? (location ++ [name]))

/-- The names in a directory that lead to directories, and the other names. -/
def listing (t : FileTree) (path : Bytes) : List Bytes × List Bytes :=
  let (directories, files) := (t.list path).partition fun (name, entry) =>
    match entry with
    | some .directory => true
    | some (.link _) => t.isDirectory (Path.join [path, name])
    | _ => false
  (directories.map (·.1), files.map (·.1))

/-- A depth that no name in the tree exceeds, with the links on its way followed. -/
def depthBound (t : FileTree) : Nat :=
  (maxLinks + 1) * ((t.entries.map (·.1.length)).foldl max 0 + 1)

end FileTree

end Yurin
