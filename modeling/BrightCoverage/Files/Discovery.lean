import BrightCoverage.Files.Walk

/-! The source files of a project. Patterns are seen from the root of the project; those that start
with an exclamation mark take files away from what the others find. Only BrightScript files are
kept, each once, in the order in which they are found first. -/

namespace BrightCoverage

/-- Why no files can be named. The place of a fault is known for exclusions only, since the others
are read together with the root. -/
inductive DiscoveryError where
  | badPattern (pattern : String) (fault : GlobFault) (pos : Option Nat)
  | emptyRoot
deriving DecidableEq

namespace Discovery

def exclusion? (pattern : String) : Option String :=
  match pattern.toList with
  | '!' :: rest => some (String.ofList rest)
  | _ => none

def readExclusion (pattern : String) : Except DiscoveryError Glob :=
  (Glob.ofText pattern.toList).mapError fun e => .badPattern pattern e.fault (some e.pos)

def readInclusion (pattern : String) : Except DiscoveryError WalkPattern :=
  (WalkPattern.ofText pattern.toList).mapError fun e => .badPattern pattern e.fault none

def rootSteps (tree : FileTree) (root : String) : List String :=
  tree.start root ++ Path.segments root

/-- What follows the root in the steps to a file; dots say nothing. -/
def stripRoot : List String → List String → Option (List String)
  | [], steps => some (steps.dropWhile (· = "."))
  | _ :: _, [] => none
  | name :: root, step :: steps =>
    if step = "." then stripRoot (name :: root) steps
    else if step = name then stripRoot root steps
    else none

def startSpot (tree : FileTree) (root pattern : String) : Option Spot :=
  if Path.isAbsolute pattern then some ⟨[], []⟩
  else match tree.locate root with
    | .ok place => some ⟨rootSteps tree root, place⟩
    | .error _ => none

def sourceSteps? (tree : FileTree) (root : String) (spot : Spot) : Option (List String) :=
  match tree.get? spot.place with
  | some (.file _) =>
    (stripRoot (rootSteps tree root) spot.shown).filter fun steps =>
      Path.isBrs (Path.ofSegments steps)
  | _ => none

def included (tree : FileTree) (root pattern : String) :
    Except DiscoveryError (List (List String)) := do
  let walkPattern ← readInclusion pattern
  match startSpot tree root pattern with
  | some spot => return (tree.search spot walkPattern).filterMap (sourceSteps? tree root)
  | none => return []

def isExcluded (exclusions : List Glob) (steps : List String) : Bool :=
  exclusions.any fun g => g.accepts (Path.ofSegments steps).toList

def sameSteps (a b : List String) : Bool :=
  a.filter (· ≠ ".") == b.filter (· ≠ ".")

/-- Of files that are the same the first is kept. -/
def firsts : List (List String) → List (List String)
  | [] => []
  | steps :: rest => steps :: (firsts rest).filter fun other => !sameSteps steps other

end Discovery

open Discovery in
def discover (tree : FileTree) (root : String) (patterns : List String) :
    Except DiscoveryError (List String) := do
  let exclusions ← (patterns.filterMap exclusion?).mapM readExclusion
  if root = "" then throw .emptyRoot
  let inclusions := patterns.filter fun p => (exclusion? p).isNone
  let found ← inclusions.mapM (included tree root)
  let kept := found.flatten.filter fun steps => !isExcluded exclusions steps
  return (firsts kept).map Path.ofSegments

end BrightCoverage
