import BrightCoverage.Coverage.Ownership
import BrightCoverage.Text.Lines

/-! Reporting calls. Every line is rendered from its own text and its owner: a statement gets a
call in front of its line, an `if` gets the call joined to its condition by `and`, and an `else if`
line is only recorded. The call gives true, so a condition keeps its outcome. -/

namespace BrightCoverage

inductive LineKind where
  | noCode | code | condition
deriving DecidableEq

namespace LineKind

def toNat : LineKind → Nat
  | noCode => 0
  | code => 1
  | condition => 2

def name : LineKind → String
  | noCode => "no code"
  | code => "code"
  | condition => "condition"

end LineKind

/-- The kinds of the lines, counted from zero, that have code. -/
abbrev Coverage := Table LineKind

namespace Coverage

def record (coverage : Coverage) (line : Nat) (kind : LineKind) : Coverage :=
  if kind = .noCode then coverage else coverage.insert line kind

/-- Notes kinds of lines from the first to the last; a later one counts. -/
def ofLines (lines : List (Nat × LineKind)) : Coverage :=
  lines.foldl (fun coverage (line, kind) => coverage.record line kind) Table.empty

def count (coverage : Coverage) (kind : LineKind) : Nat :=
  coverage.values.countP (· = kind)

end Coverage

/-- What names the reporting function of a file: the stem that the user chose and the file's
number. -/
structure Reporter where
  stem : String
  id : Nat
deriving DecidableEq

namespace Reporter

def defaultStem : String :=
  "RBS_CC"

def functionName (r : Reporter) : String :=
  r.stem ++ "_" ++ toString r.id ++ "_reportLine"

def call (r : Reporter) (line : Nat) (kind : LineKind) : String :=
  r.functionName ++ "(" ++ toString line ++ ", " ++ toString kind.toNat ++ ")"

end Reporter

/-- Cuts a text at a byte offset, unless the offset lies inside a character or past the end. -/
def cutAtByte : Nat → Text → Option (Text × Text)
  | 0, text => some ([], text)
  | _, [] => none
  | n, c :: rest =>
    if c.utf8Size ≤ n then
      (cutAtByte (n - c.utf8Size) rest).map fun (before, after) => (c :: before, after)
    else none

def cutBetween (start stop : Nat) (text : Text) : Option (Text × Text × Text) :=
  if start ≤ stop then do
    let (before, rest) ← cutAtByte start text
    let (between, after) ← cutAtByte (stop - start) rest
    return (before, between, after)
  else none

structure RenderedLine where
  kind : LineKind
  text : Text
  log : List LogEntry

def spreadCondition (number : Nat) (location : Location) : LogEntry :=
  .ofLine .warn number
    ("condition spans lines " ++ toString location.start.line ++ "-"
      ++ toString location.stop.line ++ ", recorded but not instrumented")

def badColumns (number start stop : Nat) : LogEntry :=
  .ofLine .warn number
    ("condition columns " ++ toString start ++ ".." ++ toString stop ++ " are not valid")

/-- The line of an `if` with the call joined to the condition. Columns past the end of the line
count as its end. -/
def renderCondition (r : Reporter) (number : Nat) (line : Text) (location : Location) :
    RenderedLine :=
  if location.isSingleLine && location.start.lineIndex == number then
    let start := min location.start.column (byteLength line)
    let stop := min location.stop.column (byteLength line)
    match cutBetween start stop line with
    | some (before, condition, after) =>
      ⟨.condition,
        before ++ (" " ++ r.call number .condition ++ " and (").toList ++ condition
          ++ ") ".toList ++ after, []⟩
    | none => ⟨.condition, line, [badColumns number start stop]⟩
  else ⟨.condition, line, [spreadCondition number location]⟩

def renderLine (r : Reporter) (number : Nat) (line : Text) : Option Owner → RenderedLine
  | none => ⟨.noCode, line, []⟩
  | some (.elseIf _) =>
    ⟨.condition, line,
      [.ofLine .debug number "else-if header recorded without instrumentation"]⟩
  | some (.statement (.branch _ condition ..)) =>
    renderCondition r number line condition.here.location
  | some (.statement _) => ⟨.code, (r.call number .code ++ ": ").toList ++ line, []⟩

/-- A text with its reporting calls. Every line of it ends with one line feed. -/
structure Instrumented where
  text : Text
  coverage : Coverage
  log : List LogEntry

def renderLines (r : Reporter) (owners : Ownership) (source : Text) : List RenderedLine :=
  (splitLines source).mapIdx fun number line => renderLine r number line (owners.get? number)

def instrument (r : Reporter) (owners : Ownership) (source : Text) : Instrumented :=
  let lines := renderLines r owners source
  { text := unlines (lines.map RenderedLine.text)
    coverage := Coverage.ofLines (lines.mapIdx fun number line => (number, line.kind))
    log := lines.flatMap RenderedLine.log }

end BrightCoverage
