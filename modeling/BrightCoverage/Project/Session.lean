import BrightCoverage.Project.Error

/-! A session numbers the files that it instruments and keeps what it has instrumented. A file is
instrumented in steps, each of which changes the session or the file for good: there is no way back
from a step, so what a failure leaves behind depends on the order of the steps. -/

namespace BrightCoverage

structure SourceFile where
  devicePath : String
  path : String
  text : Text
deriving DecidableEq

namespace SourceFile

def ofText (root relative : String) (text : Text) : SourceFile :=
  ⟨Path.deviceUri relative, Path.join root relative, text⟩

def parse (file : SourceFile) : Except RunError (List (Statement Extent)) :=
  (BrightCoverage.parse file.text).mapError fun errors =>
    .syntaxErrors file.devicePath (Diagnostic.ofErrors file.text errors)

end SourceFile

abbrev FileId := UInt32

/-- What becomes of a sum that does not fit: a build that checks its arithmetic stops, and any other
goes on with what is left of the sum. -/
inductive Overflow where
  | stops
  | wraps
deriving DecidableEq

namespace FileId

def first : FileId :=
  1

def next? (overflow : Overflow) (id : FileId) : Option FileId :=
  if overflow = .stops ∧ id + 1 = 0 then none else some (id + 1)

end FileId

/-- What is settled before a session and stays the same in it. -/
structure Settings where
  stem : String
  templates : TemplateSet
  overflow : Overflow

def Settings.reporter (settings : Settings) (id : FileId) : Reporter :=
  ⟨settings.stem, id.toNat⟩

structure Session extends Settings where
  nextId : FileId
  registry : Registry

def Session.start (settings : Settings) : Session :=
  { settings with nextId := .first, registry := .empty }

/-- A session and the file that it works on. -/
structure Bench where
  session : Session
  file : SourceFile

/-- A step of instrumenting: it changes the bench, and a failure keeps the changes made so far. -/
abbrev Work := EStateM RunError Bench

namespace Work

def parse : Work (List (Statement Extent)) := do
  RunError.lift id (← get).file.parse

def footer (r : Reporter) : Work Text := do
  RunError.lift .ofMissing ((← get).session.templates.renderFooter r)

def advance (id : FileId) : Work Unit := do
  let bench ← get
  match id.next? bench.session.overflow with
  | some next => set { bench with session := { bench.session with nextId := next } }
  | none => throw .noNumberLeft

def setText (text : Text) : Work Unit :=
  modify fun bench => { bench with file := { bench.file with text := text } }

def record (id : FileId) (coverage : Coverage) : Work Unit :=
  modify fun bench => { bench with session := { bench.session with
    registry := bench.session.registry.record id.toNat coverage bench.file.devicePath } }

/-- Instruments the file under the next number: its text gets the reporting calls and the footer. -/
def instrumentFile : Work FileId := do
  let statements ← parse
  let bench ← get
  let id := bench.session.nextId
  let r := bench.session.reporter id
  let result := instrument r (classify statements) bench.file.text
  let footer ← footer r
  advance id
  setText (result.text ++ footer)
  record id result.coverage
  return id

end Work

end BrightCoverage
