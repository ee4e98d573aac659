import BrightCoverage.Grammar.Branch
import BrightCoverage.Grammar.Directive
import BrightCoverage.Grammar.Expression
import BrightCoverage.Grammar.Loop

/-! Statements. The first token decides what is read; a statement that starts with an identifier is
told apart by what follows the operand. -/

namespace BrightCoverage

def AssignOp.ofKind? : TokenKind → Option AssignOp
  | .symbol .equals => some assign
  | .symbol .plusEquals => some add
  | .symbol .minusEquals => some subtract
  | .symbol .starEquals => some multiply
  | .symbol .slashEquals => some divide
  | .symbol .backslashEquals => some intDivide
  | .symbol .shiftLeftEquals => some shiftLeft
  | .symbol .shiftRightEquals => some shiftRight
  | _ => none

def PrintSeparator.ofKind? : TokenKind → Option PrintSeparator
  | .symbol .semicolon => some semicolon
  | .symbol .comma => some comma
  | _ => none

namespace Parser

/-- Gives the value printed last, which is the first of the list, its separator; one that follows
no value is dropped. -/
def separateLast (separator : PrintSeparator) :
    List (PrintItem Extent) → List (PrintItem Extent)
  | [] => []
  | .mk value _ :: items => .mk value (some separator) :: items

def printStep (self : Recursion) (items : List (PrintItem Extent)) :
    Parser (Option (List (PrintItem Extent))) := do
  if ← atStatementEnd then return none
  match (← peekKind).bind PrintSeparator.ofKind? with
  | some separator =>
    advance
    return some (separateLast separator items)
  | none =>
    let value ← self.expression .lowest
    return some (.mk value none :: items)

def print (self : Recursion) (first : Token) : Parser (Statement Extent) := do
  advance
  let items ← repeatFrom (printStep self) []
  return .print (← extentFrom first.extent) items.reverse

/-- The assignment to a target; not every expression is one. -/
def assignTo (here : Extent) (target : Expr Extent) (op : AssignOp) (value : Expr Extent) :
    Parser (Statement Extent) :=
  match target with
  | .identifier _ name => return .assign here name op value
  | .member _ object name => return .assignMember here object name op value
  | .index _ object index => return .assignIndex here object index op value
  | _ => throw (.notAssignable target.here.span)

/-- A call, or the error for an expression that is none. The error runs on to the next token. -/
def callStatement (target : Expr Extent) : Parser (Statement Extent) := do
  match target, ← peek with
  | .call .., _ => return .call (← extentFrom target.here) target
  | _, some token => throw (.danglingExpression (target.here.span.merge token.span))
  | _, none => throw (.danglingExpression target.here.span)

def operandStatement (self : Recursion) : Parser (Statement Extent) := do
  let target ← operand self
  let kind ← peekKind
  match kind.bind AssignOp.ofKind? with
  | some op =>
    advance
    let value ← self.expression .lowest
    assignTo (← extentFrom target.here) target op value
  | none =>
    if kind = some (.symbol .plusPlus) || kind = some (.symbol .minusMinus) then
      advance
      return .increment (← extentFrom target.here) target (kind = some (.symbol .minusMinus))
    else callStatement target

/-- Whether a name and a colon stand alone at the end of a line. -/
def atLabel (c : Cursor) : Bool :=
  c.kindAt? 1 = some (.symbol .colon)
    && (c.kindAt? 2 = none || c.kindAt? 2 = some .newline)

def label (first : Token) : Parser (Statement Extent) := do
  advance
  advance
  return .label (← extentFrom first.extent) first.text

def goto (first : Token) : Parser (Statement Extent) := do
  advance
  let name ← expect .identifier "label name"
  return .goto (← extentFrom first.extent) name

def giveBack (self : Recursion) (first : Token) : Parser (Statement Extent) := do
  advance
  if ← atStatementEnd then return .giveBack (← extentFrom first.extent) none
  let value ← self.expression .lowest
  return .giveBack (← extentFrom first.extent) (some value)

def exitedLoop : Parser LoopKind := do
  if ← accept (.keyword .forKw) then return .counted
  if ← accept (.keyword .whileKw) then return .conditional
  expected "FOR or WHILE after EXIT"

def exit (first : Token) : Parser (Statement Extent) := do
  advance
  let loop ← if first.kind = .keyword .exitWhileKw then pure .conditional else exitedLoop
  return .exit (← extentFrom first.extent) loop

/-- Reads `end`. With the keyword of a block after it, it has no opener here. -/
def endProgram (first : Token) : Parser (Statement Extent) := do
  advance
  let here ← extentFrom first.extent
  let some token ← peek | return .endProgram here
  if token.kind ∈ [.keyword .ifKw, .keyword .forKw, .keyword .whileKw, .keyword .subKw,
      .keyword .functionKw] then
    throw (.strayEnd (first.span.merge token.span) token.text)
  return .endProgram here

def stop (first : Token) : Parser (Statement Extent) := do
  advance
  return .stop (← extentFrom first.extent)

def dim (self : Recursion) (first : Token) : Parser (Statement Extent) := do
  advance
  let name ← expect .identifier "array name"
  let _ ← expect (.symbol .leftBracket) "["
  let size ← self.expression .lowest
  let sizes ← many (after (.symbol .comma) (self.expression .lowest))
  let _ ← expect (.symbol .rightBracket) "]"
  return .dim (← extentFrom first.extent) name (size :: sizes)

def library (first : Token) : Parser (Statement Extent) := do
  advance
  let path ← expect .string "library path string"
  return .library (← extentFrom first.extent) (unquoteText path)

def namedProcedure (self : Recursion) (keyword : ProcedureKind) (first : Token) :
    Parser (Statement Extent) := do
  advance
  let name ← expect .identifier "function name"
  let decl ← procedure self keyword first.span
  return .procedure (← extentFrom first.extent) name decl

def statement (self : Recursion) : Parser (Statement Extent) := do
  let some first ← peek | throw (.endOfText "statement")
  match first.kind with
  | .keyword .printKw | .symbol .question => print self first
  | .keyword .ifKw => branch self first
  | .keyword .forKw => forLoop self first
  | .keyword .whileKw => whileLoop self first
  | .keyword .gotoKw => goto first
  | .keyword .returnKw => giveBack self first
  | .keyword .exitKw | .keyword .exitWhileKw => exit first
  | .keyword .endKw => endProgram first
  | .keyword .stopKw => stop first
  | .keyword .functionKw => namedProcedure self .function first
  | .keyword .subKw => namedProcedure self .sub first
  | .keyword .dimKw => dim self first
  | .keyword .libraryKw => library first
  | .directive => directive self first
  | .identifier => if atLabel (← get) then label first else operandStatement self
  | .openString => throw (.unterminatedString first.span)
  | _ => throw (.notStatement first)

end Parser

end BrightCoverage
