import BrightCoverage.Files.Glob
import BrightCoverage.Files.Tree

/-! Finding what a file pattern names in a tree. The pattern is taken part by part. A part without
wildcards is looked up; with wildcards, the names of the directory are tried in ascending order; two
stars try everything below the directory, each directory before what is in it. -/

namespace BrightCoverage

/-- A place reached by a pattern, and the steps that led to it as the pattern has them. -/
structure Spot where
  shown : List String
  place : Place
deriving DecidableEq

namespace Spot

def child (spot : Spot) (name : String) : Spot :=
  ⟨spot.shown ++ [name], spot.place ++ [name]⟩

def same (spot : Spot) : Spot :=
  ⟨spot.shown ++ ["."], spot.place⟩

def above (spot : Spot) : Spot :=
  ⟨spot.shown ++ [".."], spot.place.dropLast⟩

def name (spot : Spot) : Text :=
  (spot.place.getLastD "").toList

end Spot

/-- A file pattern cut at its slashes. One that ends with a slash names directories only. -/
structure WalkPattern where
  parts : List Glob
  dirsOnly : Bool
deriving DecidableEq

namespace WalkPattern

def collapse : List Glob → List Glob
  | [] => []
  | part :: parts => match collapse parts with
    | next :: others =>
      if part.isRecursive && next.isRecursive then next :: others else part :: next :: others
    | [] => [part]

def ofText (text : Text) : Except GlobError WalkPattern := do
  let _ ← Glob.ofText text
  let body := if text.head? = some '/' then text.drop 1 else text
  let dirsOnly := text.getLast? = some '/' || text.isEmpty
  let pieces := cutAt '/' body
  let pieces := if pieces.getLast? = some [] then pieces.dropLast else pieces
  let parts ← pieces.mapM Glob.ofText
  return ⟨collapse parts, dirsOnly⟩

end WalkPattern

namespace FileTree

/-- Everything below a place, each entry before what is in it. The number of entries bounds the
depth. -/
def below (tree : FileTree) : Nat → Spot → List Spot
  | 0, _ => []
  | depth + 1, spot => (tree.names spot.place).flatMap fun name =>
    let next := spot.child name
    next :: tree.below depth next

def stepTo (tree : FileTree) (spot : Spot) (part : String) : Option Spot :=
  if part = "" then if tree.isDir spot.place then some spot else none
  else if part = "." then if tree.isDir spot.place then some spot.same else none
  else if part = ".." then if tree.isDir spot.place then some spot.above else none
  else if tree.isDir spot.place && (tree.get? (spot.place ++ [part])).isSome then
    some (spot.child part)
  else none

/-- The dot names of a directory that a part matches. Only a part that starts with a dot can. -/
def dotSpots (part : Glob) (spot : Spot) : List Spot :=
  if part.tokens.head? = some (.char '.') then
    (if part.accepts "..".toList then [spot.above] else [])
      ++ (if part.accepts ".".toList then [spot.same] else [])
  else []

def walk (tree : FileTree) (spot : Spot) : List Glob → List Spot
  | [] => [spot]
  | part :: parts =>
    match part.literal? with
    | some text => match tree.stepTo spot (String.ofList text) with
      | some next => tree.walk next parts
      | none => []
    | none =>
      if !tree.isDir spot.place then []
      else if part.isRecursive then
        let found := tree.below (tree.entries.length + 1) spot
        match parts with
        | [] => found.filter fun next => tree.isDir next.place
        | next :: others =>
          (found.filter fun s => next.accepts s.name).flatMap fun s => tree.walk s others
      else
        (dotSpots part spot).flatMap (fun s => tree.walk s parts)
          ++ (((tree.names spot.place).map spot.child).filter fun s => part.accepts s.name).flatMap
            fun s => tree.walk s parts

def search (tree : FileTree) (spot : Spot) (pattern : WalkPattern) : List Spot :=
  (tree.walk spot pattern.parts).filter fun s => !pattern.dirsOnly || tree.isDir s.place

end FileTree

end BrightCoverage
