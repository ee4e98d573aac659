import BrightCoverage.Project.CommandLine

/-! The program. What the arguments name is read into a tree of files, the run works on that tree,
and the files that it has changed are written back. -/

namespace BrightCoverage.Program

def placeOf (current : Place) (path : String) : Place :=
  let start := if Path.isAbsolute path then [] else current
  (Path.segments path).foldl (fun place step =>
    if step = ".." then place.dropLast else place ++ [step]) start

def diskPath (place : Place) : String :=
  "/" ++ Path.ofSegments place

/-- The directories besides the project in which a pattern can find files: it leaves the project if
it is absolute or goes up. -/
def outsideDir? (root pattern : String) : Option String :=
  let pieces := (Path.pieces pattern).takeWhile fun piece =>
    piece.toList.all fun c => c != '*' && c != '?' && c != '['
  if Path.isAbsolute pattern || pieces.contains ".." then
    some (Path.join root (Path.ofSegments pieces))
  else none

def reach (config : Config) : List String :=
  config.projectPath :: config.templateDir.toList
    ++ config.patterns.filterMap (outsideDir? config.projectPath)

def readContent (place : Place) : IO Content := do
  let bytes ← IO.FS.readBinFile (diskPath place)
  match String.fromUTF8? bytes with
  | some s => return .text s.toList
  | none => return .bytes bytes.toList

/-- Reads a file, or a directory with all that is in it, into the tree. -/
partial def load (tree : FileTree) (place : Place) : IO FileTree := do
  let here := (← IO.currentDir) / diskPath place
  if ← here.isDir then
    let mut tree := tree.addDirs place
    for entry in ← here.readDir do
      tree ← load tree (place ++ [entry.fileName])
    return tree
  else if ← here.pathExists then return tree.addFile place (← readContent place)
  else return tree

def loadAll (tree : FileTree) (paths : List String) : IO FileTree :=
  paths.foldlM (fun tree path => load tree (placeOf tree.current path)) tree

def store (before after : FileTree) : IO Unit := do
  for (place, entity) in after.entries do
    if let .file (.text t) := entity then
      if before.get? place ≠ some entity then
        IO.FS.createDirAll (diskPath place.dropLast)
        IO.FS.writeFile (diskPath place) (String.ofList t)

def prepare (options : Options) (tree : FileTree) : IO FileTree := do
  let tree ← loadAll tree options.config.toList
  match options.baseConfig tree with
  | .ok base => loadAll tree (reach (options.toConfig base))
  | .error _ => return tree

end BrightCoverage.Program

open BrightCoverage Program in
def main (args : List String) : IO UInt32 := do
  let current := Path.segments (← IO.currentDir).toString
  let empty := FileTree.empty current
  let tree ← match Request.ofArgs args with
    | some (.run options) => prepare options empty
    | _ => pure empty
  let outcome := runArgs args tree
  store tree outcome.tree
  (← IO.getStdout).putStr outcome.stdout
  (← IO.getStderr).putStr outcome.stderr
  return UInt32.ofNat outcome.exitCode
