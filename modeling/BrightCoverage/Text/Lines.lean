import BrightCoverage.Text.Position

/-! The two notions of a line. A `LineIndex` finds the position of a byte offset from the offsets
at which lines start; `splitLines` cuts the text into its lines and drops the line breaks, written
as LF or as CR LF. Both see a final line after a trailing break. -/

namespace BrightCoverage

def startsAfterBreaks (offset : Nat) : Text → List Nat
  | [] => []
  | c :: rest =>
    let next := offset + c.utf8Size
    if c = '\n' then next :: startsAfterBreaks next rest else startsAfterBreaks next rest

structure LineIndex where
  starts : List Nat
deriving DecidableEq

namespace LineIndex

def ofText (text : Text) : LineIndex :=
  ⟨0 :: startsAfterBreaks 0 text⟩

/-- The last line that starts at or before the offset, and the distance from its start. Past the
end of the text the last line goes on. -/
def position (index : LineIndex) (offset : Nat) : Position :=
  let before := index.starts.takeWhile (· ≤ offset)
  ⟨before.length, offset - before.getLastD 0⟩

def lineCount (index : LineIndex) : Nat :=
  index.starts.length

end LineIndex

def cutAt (mark : Char) : Text → List Text
  | [] => [[]]
  | c :: rest =>
    if c = mark then [] :: cutAt mark rest
    else match cutAt mark rest with
      | [] => [[c]]
      | piece :: pieces => (c :: piece) :: pieces

def dropReturn (line : Text) : Text :=
  if line.getLast? = some '\r' then line.dropLast else line

/-- The physical lines of a text, without their line breaks. -/
def splitLines (text : Text) : List Text :=
  (cutAt '\n' text).map dropReturn

def unlines (lines : List Text) : Text :=
  lines.flatMap fun line => line ++ ['\n']

end BrightCoverage
