/-! Places in a source text. Offsets and columns count UTF-8 bytes, lines count from one and
columns from zero. A `Mark` is a place reached while reading: moving it over a character keeps its
offset and its position in step, so both ends of a token are known without a second pass. -/

namespace BrightCoverage

abbrev Text := List Char

def byteLength : Text → Nat
  | [] => 0
  | c :: rest => c.utf8Size + byteLength rest

structure Span where
  start : Nat
  stop : Nat
deriving DecidableEq

namespace Span

def merge (a b : Span) : Span :=
  ⟨min a.start b.start, max a.stop b.stop⟩

end Span

structure Position where
  line : Nat
  column : Nat
deriving DecidableEq

namespace Position

protected def le (a b : Position) : Prop :=
  a.line < b.line ∨ (a.line = b.line ∧ a.column ≤ b.column)

instance : LE Position := ⟨Position.le⟩

instance (a b : Position) : Decidable (a ≤ b) :=
  inferInstanceAs (Decidable (a.line < b.line ∨ (a.line = b.line ∧ a.column ≤ b.column)))

instance : Min Position := ⟨fun a b => if a ≤ b then a else b⟩

instance : Max Position := ⟨fun a b => if a ≤ b then b else a⟩

/-- The line counted from zero. -/
def lineIndex (p : Position) : Nat :=
  p.line - 1

def render (p : Position) : String :=
  toString p.line ++ ":" ++ toString (p.column + 1)

end Position

structure Location where
  start : Position
  stop : Position
deriving DecidableEq

namespace Location

def merge (a b : Location) : Location :=
  ⟨min a.start b.start, max a.stop b.stop⟩

def isSingleLine (l : Location) : Bool :=
  l.start.line == l.stop.line

end Location

/-- Where a token or a node of the tree stands, in bytes and in positions. -/
structure Extent where
  span : Span
  location : Location
deriving DecidableEq

namespace Extent

def through (first last : Extent) : Extent :=
  ⟨⟨first.span.start, last.span.stop⟩, ⟨first.location.start, last.location.stop⟩⟩

end Extent

/-- A place reached while reading a text from its start. -/
structure Mark where
  offset : Nat
  position : Position
deriving DecidableEq

namespace Mark

def origin : Mark :=
  ⟨0, ⟨1, 0⟩⟩

def next (m : Mark) (c : Char) : Mark :=
  if c = '\n' then ⟨m.offset + c.utf8Size, ⟨m.position.line + 1, 0⟩⟩
  else ⟨m.offset + c.utf8Size, ⟨m.position.line, m.position.column + c.utf8Size⟩⟩

def advance (m : Mark) (text : Text) : Mark :=
  text.foldl next m

def extentTo (a b : Mark) : Extent :=
  ⟨⟨a.offset, b.offset⟩, ⟨a.position, b.position⟩⟩

end Mark

end BrightCoverage
