import BrightCoverage.Coverage.Instrument
import BrightCoverage.Proofs.Rendering

/-! The pass over trees that stands behind the reporting calls. A plan says which statements get a
call in front of them and which conditions get one joined to them; the pass puts the calls in and
leaves everything else alone. The plan of a file follows from the owners of its lines. -/

namespace BrightCoverage

/-- Which statements get a call in front of them, and which conditions one joined to them: the
line that the call reports. -/
structure Plan where
  code : Statement Extent → Option Nat
  condition : Statement Extent → Option Nat

def Statement.isCode {α : Type} : Statement α → Bool
  | .forLoop .. | .forEach .. | .whileLoop .. | .call .. | .assign .. | .assignMember ..
  | .assignIndex .. | .print .. | .giveBack .. => true
  | _ => false

namespace Ownership

/-- Whether the statement owns the line on which it starts. -/
def owns (owners : Ownership) (s : Statement Extent) : Bool :=
  match owners.get? s.here.startLine with
  | some (.statement owner) => owner.here = s.here
  | _ => false

/-- A statement that owns its line as code gets a call, and so does the condition of an `if` that
owns its line, unless the condition goes over several lines. -/
def plan (owners : Ownership) : Plan where
  code s := if owners.owns s && s.isCode then some s.here.startLine else none
  condition
    | s@(.branch _ condition ..) =>
      if owners.owns s && condition.here.location.isSingleLine then some s.here.startLine else none
    | _ => none

end Ownership

namespace Reporter

def callExpr (r : Reporter) (here : Extent) (line : Nat) (kind : LineKind) : Expr Extent :=
  .call here (.identifier here r.functionName) [.integer here line, .integer here kind.toNat]

def report (r : Reporter) (line : Nat) (kind : LineKind) : List Lexeme :=
  [.word r.functionName, .symbol .leftParen, .integer line, .symbol .comma, .integer kind.toNat,
    .symbol .rightParen]

/-- The statements in front of one. -/
def before (r : Reporter) (here : Extent) : Option Nat → List (Statement Extent)
  | none => []
  | some line => [.call here (r.callExpr here line .code)]

/-- A condition with a call joined to it. -/
def joined (r : Reporter) (condition : Expr Extent) : Option Nat → Expr Extent
  | none => condition
  | some line =>
    .binary condition.here .and (r.callExpr condition.here line .condition)
      (.grouped condition.here condition)

end Reporter

mutual

/-- A statement with the calls that the plan puts into it. -/
def Statement.pass (r : Reporter) (plan : Plan) : Statement Extent → Statement Extent
  | .procedure here name decl => .procedure here name (decl.pass r plan)
  | s@(.branch here condition thenBody elseIfs elseBody) =>
    .branch here (r.joined condition (plan.condition s)) (passBody r plan thenBody)
      (passElseIfs r plan elseIfs) (passBody? r plan elseBody)
  | .forLoop here counter first last step body =>
    .forLoop here counter first last step (passBody r plan body)
  | .forEach here item target body => .forEach here item target (passBody r plan body)
  | .whileLoop here condition body => .whileLoop here condition (passBody r plan body)
  | .compileIf here condition thenBody elseIfs elseBody =>
    .compileIf here condition (passBody r plan thenBody) (passCompileElseIfs r plan elseIfs)
      (passBody? r plan elseBody)
  | s => s

def Procedure.pass (r : Reporter) (plan : Plan) : Procedure Extent → Procedure Extent
  | .mk keyword params returns body => .mk keyword params returns (passBody r plan body)

def passBody (r : Reporter) (plan : Plan) : List (Statement Extent) → List (Statement Extent)
  | [] => []
  | s :: rest => r.before s.here (plan.code s) ++ s.pass r plan :: passBody r plan rest

def passBody? (r : Reporter) (plan : Plan) :
    Option (List (Statement Extent)) → Option (List (Statement Extent))
  | none => none
  | some body => some (passBody r plan body)

def ElseIf.pass (r : Reporter) (plan : Plan) : ElseIf Extent → ElseIf Extent
  | .mk keyword condition body => .mk keyword condition (passBody r plan body)

def passElseIfs (r : Reporter) (plan : Plan) : List (ElseIf Extent) → List (ElseIf Extent)
  | [] => []
  | clause :: rest => clause.pass r plan :: passElseIfs r plan rest

def CompileElseIf.pass (r : Reporter) (plan : Plan) :
    CompileElseIf Extent → CompileElseIf Extent
  | .mk condition body => .mk condition (passBody r plan body)

def passCompileElseIfs (r : Reporter) (plan : Plan) :
    List (CompileElseIf Extent) → List (CompileElseIf Extent)
  | [] => []
  | clause :: rest => clause.pass r plan :: passCompileElseIfs r plan rest

end

end BrightCoverage
