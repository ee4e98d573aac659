import BrightCoverage.Text.Position

/-! Templates. A placeholder is an upper-case name between two hash marks. Rendering goes through
the text once from the left; a mark that opens no known placeholder stays, and values are not
looked at again. -/

namespace BrightCoverage

structure Template where
  name : String
  text : Text
deriving DecidableEq

namespace Template

def isNameChar (c : Char) : Bool :=
  c.isUpper || c.isDigit || c == '_'

def isName (key : Text) : Bool :=
  !key.isEmpty && key.all isNameChar

def cutAtHash : Text → Option (Text × Text)
  | [] => none
  | c :: rest =>
    if c = '#' then some ([], rest)
    else (cutAtHash rest).map fun (before, after) => (c :: before, after)

/-- The value of the placeholder whose opening mark has just been read, and the text after its
closing mark. -/
def placeholder (values : List (Text × Text)) (text : Text) : Option (Text × Text) := do
  let (key, after) ← cutAtHash text
  if isName key then
    let value ← values.lookup key
    return (value, after)
  else none

def renderText (values : List (Text × Text)) : Nat → Text → Text
  | 0, text => text
  | _, [] => []
  | steps + 1, c :: rest =>
    if c = '#' then
      match placeholder values rest with
      | some (value, after) => value ++ renderText values steps after
      | none => c :: renderText values steps rest
    else c :: renderText values steps rest

/-- Puts values in for placeholders; of two values for a key the first counts. -/
def render (t : Template) (values : List (Text × Text)) : Text :=
  renderText values t.text.length t.text

def occursIn (part : Text) : Text → Bool
  | [] => part.isEmpty
  | c :: rest => part.isPrefixOf (c :: rest) || occursIn part rest

def hasPlaceholder (t : Template) (key : Text) : Bool :=
  occursIn (['#'] ++ key ++ ['#']) t.text

end Template

end BrightCoverage
