import BrightCoverage.Text.Lines

/-! Paths as text. A path is cut at its slashes; empty parts and parts that are a single dot say
nothing, two dots go up, and a path that starts with a slash is absolute. Joining and taking
parents work on the text and keep all that is not cut off. -/

namespace BrightCoverage

namespace Path

def pieces (path : String) : List String :=
  (cutAt '/' path.toList).map String.ofList

def isAbsolute (path : String) : Bool :=
  path.toList.head? = some '/'

def isIdle (piece : String) : Bool :=
  piece = "" || piece = "."

def segments (path : String) : List String :=
  (pieces path).filter fun piece => !isIdle piece

def ofSegments (segments : List String) : String :=
  "/".intercalate segments

/-- A path seen from another; an absolute one stays as it is. -/
def join (base path : String) : String :=
  if isAbsolute path || base = "" then path
  else if base.toList.getLast? = some '/' then base ++ path
  else base ++ "/" ++ path

def dropIdleEnd (pieces : List String) : List String :=
  (pieces.reverse.dropWhile isIdle).reverse

/-- The path without its last part and the slashes before it. The root and the empty path have
none. -/
def parent? (path : String) : Option String :=
  match pieces path with
  | [] => none
  | first :: others => match dropIdleEnd others with
    | [] => if first = "" then none else some ""
    | others => match dropIdleEnd others.dropLast with
      | [] => some (if first = "" then "/" else first)
      | above => some ("/".intercalate (first :: above))

def fileName? (path : String) : Option String :=
  (segments path).getLast?.filter (· ≠ "..")

/-- What follows the last dot of a name, unless there is nothing before that dot. -/
def extensionOf? (name : String) : Option String :=
  match cutAt '.' name.toList with
  | [] | [_] | [[], _] => none
  | parts => parts.getLast?.map String.ofList

def isBrs (path : String) : Bool :=
  match (fileName? path).bind extensionOf? with
  | some ext => ext.toList.map Char.toLower = "brs".toList
  | none => false

/-- The path of a project file on the device. Only names count. -/
def deviceUri (path : String) : String :=
  "pkg:/" ++ ofSegments ((segments path).filter (· ≠ ".."))

end Path

end BrightCoverage
