import BrightCoverage.Coverage.Log
import BrightCoverage.Coverage.Table
import BrightCoverage.Grammar.Tree
import BrightCoverage.Text.Position

/-! Which statement a line belongs to. Statements are visited in the order of the text and each
claims the line on which it starts; a line keeps its first owner. Procedures claim nothing, their
statements do. An `else if` clause claims the line of its keyword after its own statements. -/

namespace BrightCoverage

/-- What owns a line: a statement that starts on it, or an `else if` whose keyword stands on it. -/
inductive Owner where
  | statement (s : Statement Extent)
  | elseIf (clause : ElseIf Extent)

/-- What happens at a statement or a clause on the way through a file. -/
inductive Visit where
  | claim (line : Nat) (owner : Owner)
  | passOver (line : Nat) (kind : String)

def Extent.startLine (e : Extent) : Nat :=
  e.location.start.lineIndex

/-- A statement claims the line on which it starts. -/
def Visit.byStatement (s : Statement Extent) : Visit :=
  .claim s.here.startLine (.statement s)

def Visit.past (s : Statement Extent) : Visit :=
  .passOver s.here.startLine s.kindName

mutual

def Statement.visits : Statement Extent → List Visit
  | .procedure _ _ decl => decl.visits
  | s@(.branch _ _ thenBody elseIfs elseBody) =>
    .byStatement s :: (visitAll thenBody ++ visitElseIfs elseIfs ++ visitOptional elseBody)
  | s@(.forLoop _ _ _ _ _ body) => .byStatement s :: visitAll body
  | s@(.forEach _ _ _ body) => .byStatement s :: visitAll body
  | s@(.whileLoop _ _ body) => .byStatement s :: visitAll body
  | s@(.call ..) => [.byStatement s]
  | s@(.assign ..) => [.byStatement s]
  | s@(.assignMember ..) => [.byStatement s]
  | s@(.assignIndex ..) => [.byStatement s]
  | s@(.print ..) => [.byStatement s]
  | s@(.giveBack ..) => [.byStatement s]
  | .compileIf _ _ thenBody elseIfs elseBody =>
    visitAll thenBody ++ visitCompileElseIfs elseIfs ++ visitOptional elseBody
  | s@(.increment ..) => [.past s]
  | s@(.dim ..) => [.past s]
  | s@(.goto ..) => [.past s]
  | s@(.label ..) => [.past s]
  | s@(.exit ..) => [.past s]
  | s@(.endProgram ..) => [.past s]
  | s@(.stop ..) => [.past s]
  | s@(.library ..) => [.past s]
  | s@(.directive ..) => [.past s]

def Procedure.visits : Procedure Extent → List Visit
  | .mk _ _ _ body => visitAll body

def visitAll : List (Statement Extent) → List Visit
  | [] => []
  | s :: rest => s.visits ++ visitAll rest

def visitOptional : Option (List (Statement Extent)) → List Visit
  | none => []
  | some body => visitAll body

/-- The visits of a clause: its statements first, then its keyword. -/
def ElseIf.visits : ElseIf Extent → List Visit
  | clause@(.mk keyword _ body) => visitAll body ++ [.claim keyword.startLine (.elseIf clause)]

def visitElseIfs : List (ElseIf Extent) → List Visit
  | [] => []
  | clause :: rest => clause.visits ++ visitElseIfs rest

def CompileElseIf.visits : CompileElseIf Extent → List Visit
  | .mk _ body => visitAll body

def visitCompileElseIfs : List (CompileElseIf Extent) → List Visit
  | [] => []
  | clause :: rest => clause.visits ++ visitCompileElseIfs rest

end

abbrev Ownership := Table Owner

namespace Ownership

/-- Enters one visit: a claim counts if the line has no owner yet. -/
def enter (owners : Ownership) : Visit → Ownership
  | .claim line owner => owners.claim line owner
  | .passOver .. => owners

end Ownership

def classify (statements : List (Statement Extent)) : Ownership :=
  (visitAll statements).foldl Ownership.enter Table.empty

def Visit.message? : Visit → Option LogEntry
  | .claim .. => none
  | .passOver line kind =>
    some (.ofLine .debug line ("`" ++ kind ++ "` statement is not instrumented"))

def classifyLog (statements : List (Statement Extent)) : List LogEntry :=
  (visitAll statements).filterMap Visit.message?

end BrightCoverage
