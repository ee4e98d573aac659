import BrightCoverage.Files.Path

/-! Trees of files. A tree lists what stands at which place; a place is the names from the root
down, and the directories above an entry are entries too. Paths are followed step by step: every
step needs a directory, a dot stays in it and two dots leave it.

There are directories and files, and nothing else: no symbolic links, so a place has one path without
dots, and no permissions or full disks. What is there can be read and written over, and a write only
fails where its path leads nowhere, through a file or to a directory. -/

namespace BrightCoverage

/-- A file holds text, or bytes that are no UTF-8. -/
inductive Content where
  | text (t : Text)
  | bytes (b : List UInt8)
deriving DecidableEq

inductive Entity where
  | dir
  | file (content : Content)
deriving DecidableEq

inductive FileFault where
  | notFound
  | notADirectory
  | isADirectory
  | alreadyExists
  | notText
  | emptyPath
deriving DecidableEq

namespace FileFault

def message : FileFault → String
  | notFound => "No such file or directory (os error 2)"
  | notADirectory => "Not a directory (os error 20)"
  | isADirectory => "Is a directory (os error 21)"
  | alreadyExists => "File exists (os error 17)"
  | notText => "stream did not contain valid UTF-8"
  | emptyPath => "cannot make an empty path absolute"

end FileFault

abbrev Place := List String

/-- The entries of a tree, and the place from which relative paths start. -/
structure FileTree where
  current : Place
  entries : List (Place × Entity)
deriving DecidableEq

namespace FileTree

def get? (tree : FileTree) (place : Place) : Option Entity :=
  if place = [] then some .dir else tree.entries.lookup place

def isDir (tree : FileTree) (place : Place) : Bool :=
  tree.get? place = some .dir

def setEntry (place : Place) (entity : Entity) : List (Place × Entity) → List (Place × Entity)
  | [] => [(place, entity)]
  | entry :: entries =>
    if entry.1 = place then (place, entity) :: entries else entry :: setEntry place entity entries

def set (tree : FileTree) (place : Place) (entity : Entity) : FileTree :=
  { tree with entries := setEntry place entity tree.entries }

def names (tree : FileTree) (place : Place) : List String :=
  let below := tree.entries.filterMap fun (p, _) =>
    if p.dropLast = place then p.getLast? else none
  below.mergeSort fun a b => decide (a < b) || a == b

/-- The steps of a path; an empty part needs a directory as a dot does. -/
def steps (path : String) : List String :=
  match Path.pieces path with
  | "" :: others => others.map fun piece => if piece = "" then "." else piece
  | pieces => pieces.map fun piece => if piece = "" then "." else piece

def start (tree : FileTree) (path : String) : Place :=
  if Path.isAbsolute path then [] else tree.current

def follow (tree : FileTree) (place : Place) : List String → Except FileFault Place
  | [] => .ok place
  | step :: rest =>
    if tree.isDir place then
      if step = "." then tree.follow place rest
      else if step = ".." then tree.follow place.dropLast rest
      else if (tree.get? (place ++ [step])).isSome then tree.follow (place ++ [step]) rest
      else .error .notFound
    else .error .notADirectory

def locate (tree : FileTree) (path : String) : Except FileFault Place :=
  if path = "" then .error .notFound else tree.follow (tree.start path) (steps path)

def readText (tree : FileTree) (path : String) : Except FileFault Text := do
  let place ← tree.locate path
  match tree.get? place with
  | some (.file (.text t)) => return t
  | some (.file (.bytes _)) => throw .notText
  | some .dir => throw .isADirectory
  | none => throw .notFound

/-- Follows steps from a directory and makes the directories that are missing. Where a file stands
in the way, the fault tells whether it stands at the end. -/
def makeDirs (tree : FileTree) (place : Place) : List String → Except FileFault FileTree
  | [] => .ok tree
  | step :: rest =>
    if step = "." then tree.makeDirs place rest
    else if step = ".." then tree.makeDirs place.dropLast rest
    else
      let next := place ++ [step]
      match tree.get? next with
      | some .dir => tree.makeDirs next rest
      | some (.file _) => .error (if rest.isEmpty then .alreadyExists else .notADirectory)
      | none => (tree.set next .dir).makeDirs next rest

def createDirs (tree : FileTree) (path : String) : Except FileFault FileTree :=
  if path = "" then .ok tree else tree.makeDirs (tree.start path) (steps path)

def target (tree : FileTree) (place : Place) : List String → Except FileFault Place
  | [] => .ok place
  | [step] =>
    if tree.isDir place then
      if step = "." then .ok place
      else if step = ".." then .ok place.dropLast
      else .ok (place ++ [step])
    else .error .notADirectory
  | step :: rest => do
    let next ← tree.follow place [step]
    tree.target next rest

def writeText (tree : FileTree) (path : String) (text : Text) : Except FileFault FileTree := do
  if path = "" then throw .notFound
  let place ← tree.target (tree.start path) (steps path)
  if tree.isDir place then throw .isADirectory
  return tree.set place (.file (.text text))

structure Failure where
  path : String
  fault : FileFault
deriving DecidableEq

def save (tree : FileTree) (path : String) (text : Text) : Except Failure FileTree := do
  let tree ← match Path.parent? path with
    | some parent => (tree.createDirs parent).mapError (Failure.mk parent)
    | none => .ok tree
  (tree.writeText path text).mapError (Failure.mk path)

def addDirs (tree : FileTree) (place : Place) : FileTree :=
  (List.range place.length).foldl (fun tree n =>
    let above := place.take (n + 1)
    if (tree.get? above).isSome then tree else tree.set above .dir) tree

def addFile (tree : FileTree) (place : Place) (content : Content) : FileTree :=
  (tree.addDirs place.dropLast).set place (.file content)

def empty (current : Place) : FileTree :=
  addDirs ⟨current, []⟩ current

def files (tree : FileTree) : List (String × Content) :=
  tree.entries.filterMap fun (place, entity) => match entity with
    | .file content =>
      if tree.current.isPrefixOf place then
        some (Path.ofSegments (place.drop tree.current.length), content)
      else none
    | .dir => none

end FileTree

end BrightCoverage
