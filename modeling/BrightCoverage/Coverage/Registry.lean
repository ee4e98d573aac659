import BrightCoverage.Coverage.Instrument

/-! What a run has instrumented: the coverage of every file and its device path, in two maps by file
number. The maps are written as compact JSON objects whose keys are decimal numbers in ascending
order. -/

namespace BrightCoverage

/-- The instrumented files by number. Nothing in the type ties the two maps to each other. -/
structure Registry where
  expected : Table Coverage
  paths : Table String

namespace Registry

def empty : Registry :=
  ⟨Table.empty, Table.empty⟩

def recordedTwice (id : Nat) : LogEntry :=
  ⟨.warn, "file id " ++ toString id ++ " recorded twice; keeping the latest map"⟩

def recordLog (registry : Registry) (id : Nat) : List LogEntry :=
  if (registry.expected.get? id).isSome then [recordedTwice id] else []

def recordCoverage (registry : Registry) (id : Nat) (coverage : Coverage) : Registry :=
  { registry with expected := registry.expected.insert id coverage }

def recordPath (registry : Registry) (id : Nat) (path : String) : Registry :=
  { registry with paths := registry.paths.insert id path }

/-- Notes a file under a number, in one map after the other. -/
def record (registry : Registry) (id : Nat) (coverage : Coverage) (path : String) : Registry :=
  (registry.recordCoverage id coverage).recordPath id path

def size (registry : Registry) : Nat :=
  registry.expected.size

def isEmpty (registry : Registry) : Bool :=
  registry.expected.isEmpty

def lineCount (registry : Registry) : Nat :=
  registry.expected.values.foldr (fun coverage n => coverage.size + n) 0

def countKind (registry : Registry) (kind : LineKind) : Nat :=
  registry.expected.values.foldr (fun coverage n => coverage.count kind + n) 0

end Registry

/-- The JSON escape of one character. Quote, backslash and control characters have one. -/
def jsonEscape (c : Char) : Text :=
  match c with
  | '"' => ['\\', '"']
  | '\\' => ['\\', '\\']
  | '\x08' => ['\\', 'b']
  | '\x0c' => ['\\', 'f']
  | '\n' => ['\\', 'n']
  | '\r' => ['\\', 'r']
  | '\t' => ['\\', 't']
  | c =>
    if c.toNat < 0x20 then
      ['\\', 'u', '0', '0', Nat.digitChar (c.toNat / 16), Nat.digitChar (c.toNat % 16)]
    else [c]

def jsonString (text : Text) : Text :=
  ['"'] ++ text.flatMap jsonEscape ++ ['"']

def commaJoin : List Text → Text
  | [] => []
  | [text] => text
  | text :: texts => text ++ [','] ++ commaJoin texts

def jsonObject (entries : List (Nat × Text)) : Text :=
  ['\x7b'] ++ commaJoin (entries.map fun (key, value) =>
    jsonString (Nat.toDigits 10 key) ++ [':'] ++ value) ++ ['\x7d']

def Coverage.json (coverage : Coverage) : Text :=
  jsonObject (coverage.entries.map fun (line, kind) => (line, Nat.toDigits 10 kind.toNat))

namespace Registry

/-- The coverage of every file as JSON. -/
def expectedJson (registry : Registry) : Text :=
  jsonObject (registry.expected.entries.map fun (id, coverage) => (id, coverage.json))

/-- The device path of every file as JSON. -/
def pathsJson (registry : Registry) : Text :=
  jsonObject (registry.paths.entries.map fun (id, path) => (id, jsonString path.toList))

end Registry

end BrightCoverage
