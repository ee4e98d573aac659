import BrightCoverage.Text.Position

/-! File patterns. A question mark and a class stand for one character, a star for any run of
characters, and none of them for a slash; two stars are a whole part of a path and stand for any
number of directories. -/

namespace BrightCoverage

/-- A piece of a file pattern. A class is a list of closed ranges. -/
inductive GlobToken where
  | char (c : Char)
  | anyChar
  | within (ranges : List (Char × Char))
  | except (ranges : List (Char × Char))
  | anyRun
  | anyDirs
deriving DecidableEq

inductive GlobFault where
  | tooManyStars
  | partialStars
  | badRange
deriving DecidableEq

namespace GlobFault

def message : GlobFault → String
  | tooManyStars => "wildcards are either regular `*` or recursive `**`"
  | partialStars => "recursive wildcards must form a single path component"
  | badRange => "invalid range pattern"

end GlobFault

structure GlobError where
  pos : Nat
  fault : GlobFault
deriving DecidableEq

structure Glob where
  tokens : List GlobToken
deriving DecidableEq

namespace Glob

def cutAtBracket : Text → Option (Text × Text)
  | [] => none
  | c :: rest =>
    if c = ']' then some ([], rest)
    else (cutAtBracket rest).map fun (before, after) => (c :: before, after)

def ranges : Text → List (Char × Char)
  | low :: '-' :: high :: rest => (low, high) :: ranges rest
  | c :: rest => (c, c) :: ranges rest
  | [] => []

/-- Reads the rest of a class after its opening bracket. A closing bracket that comes first is an
ordinary character. -/
def readClass : Text → Option (GlobToken × Text)
  | '!' :: c :: rest =>
    (cutAtBracket rest).map fun (inside, after) => (.except (ranges (c :: inside)), after)
  | '!' :: [] => none
  | c :: rest =>
    (cutAtBracket rest).map fun (inside, after) => (.within (ranges (c :: inside)), after)
  | [] => none

/-- Reads what follows a run of stars that starts at `pos`; `before` is the character before the
run. Two stars take the slash after them along. -/
def readStars (pos : Nat) (before : Option Char) (count : Nat) (rest : Text) :
    Except GlobError (GlobToken × Text) :=
  if count = 1 then .ok (.anyRun, rest)
  else if count > 2 then .error ⟨pos + 2, .tooManyStars⟩
  else if before = none || before = some '/' then match rest with
    | [] => .ok (.anyDirs, [])
    | '/' :: rest => .ok (.anyDirs, rest)
    | _ => .error ⟨pos + 2, .partialStars⟩
  else .error ⟨pos - 1, .partialStars⟩

def readTokens (whole : Text) : Nat → Text → Except GlobError (List GlobToken)
  | 0, _ => .ok []
  | _, [] => .ok []
  | rounds + 1, c :: rest =>
    let pos := whole.length - (rest.length + 1)
    let before := if pos = 0 then none else whole[pos - 1]?
    match c with
    | '?' => do return .anyChar :: (← readTokens whole rounds rest)
    | '*' => do
      let stars := rest.takeWhile (· = '*')
      let (token, rest) ← readStars pos before (stars.length + 1) (rest.drop stars.length)
      return token :: (← readTokens whole rounds rest)
    | '[' => match readClass rest with
      | some (token, rest) => do return token :: (← readTokens whole rounds rest)
      | none => .error ⟨pos, .badRange⟩
    | c => do return .char c :: (← readTokens whole rounds rest)

def ofText (text : Text) : Except GlobError Glob := do
  return ⟨← readTokens text text.length text⟩

def inRanges (ranges : List (Char × Char)) (c : Char) : Bool :=
  ranges.any fun (low, high) => low ≤ c && c ≤ high

/-- Whether some run without a slash is followed by a text that `next` accepts. -/
def afterRun (next : Text → Bool) : Text → Bool
  | [] => next []
  | c :: rest => next (c :: rest) || (c != '/' && afterRun next rest)

def afterDirs (next : Text → Bool) : Text → Bool
  | [] => next []
  | c :: rest => (c == '/' && next rest) || afterDirs next rest

def afterChar (good : Char → Bool) (next : Text → Bool) : Text → Bool
  | [] => false
  | c :: rest => good c && next rest

def matchTokens : List GlobToken → Text → Bool
  | [], text => text.isEmpty
  | .char x :: tokens, text => afterChar (· == x) (matchTokens tokens) text
  | .anyChar :: tokens, text => afterChar (· != '/') (matchTokens tokens) text
  | .within ranges :: tokens, text =>
    afterChar (fun c => c != '/' && inRanges ranges c) (matchTokens tokens) text
  | .except ranges :: tokens, text =>
    afterChar (fun c => c != '/' && !inRanges ranges c) (matchTokens tokens) text
  | .anyRun :: tokens, text => afterRun (matchTokens tokens) text
  | .anyDirs :: tokens, text => matchTokens tokens text || afterDirs (matchTokens tokens) text

def accepts (g : Glob) (text : Text) : Bool :=
  matchTokens g.tokens text

def isRecursive (g : Glob) : Bool :=
  g.tokens.contains .anyDirs

def literal? (g : Glob) : Option Text :=
  g.tokens.mapM fun
    | .char c => some c
    | _ => none

end Glob

end BrightCoverage
