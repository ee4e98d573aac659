import BrightCoverage.Grammar.Block

/-! `if` statements. An `if` whose condition ends its line is a block with `else if` clauses and
its own end; otherwise it stands on one line with its statements, needs `then`, and an `elseif`
after them makes a nested `if`. -/

namespace BrightCoverage

namespace Cursor

/-- Whether `elseif` or `else if` comes next. -/
def atElseIf (c : Cursor) : Bool :=
  c.kind? = some (.keyword .elseIfKw)
    || (c.kind? = some (.keyword .elseKw) && c.kindAt? 1 = some (.keyword .ifKw))

def atBranchEnd (c : Cursor) : Bool :=
  c.atElseIf || c.kind? = some (.keyword .elseKw) || Block.branch.atEnd c

/-- Whether nothing more stands on the line of an `if` after its condition. -/
def atBlockForm (c : Cursor) : Bool :=
  match c.kind? with
  | none | some .newline | some (.symbol .colon) => true
  | _ => false

/-- Whether the statements of an `if` on one line end after a colon. -/
def atInlineEnd (c : Cursor) : Bool :=
  match c.kind? with
  | none | some .newline | some (.keyword .elseKw) | some (.keyword .elseIfKw) => true
  | _ => false

end Cursor

namespace Parser

def inlineItem (self : Recursion) : Parser (Option (Statement Extent)) := do
  if ← accept (.symbol .colon) then
    if (← get).atInlineEnd then return none
    return some (← self.statement)
  else return none

/-- Reads statements with colons between them, up to the end of the line or an `else`. -/
def inlineStatements (self : Recursion) : Parser (List (Statement Extent)) := do
  let first ← self.statement
  return first :: (← many (inlineItem self))

def inlineElse (self : Recursion) : Parser (Option (List (Statement Extent))) := do
  match ← peekKind with
  | some (.keyword .elseIfKw) => return some [← self.inlineElseIf]
  | some (.keyword .elseKw) =>
    advance
    return some (← inlineStatements self)
  | _ => return none

def inlineBranch (self : Recursion) (first : Token) (condition : Expr Extent) :
    Parser (Statement Extent) := do
  let thenBody ← inlineStatements self
  let elseBody ← inlineElse self
  return .branch (← extentFrom first.extent) condition thenBody [] elseBody

def inlineElseIf (self : Recursion) : Parser (Statement Extent) := do
  let some first ← peek | expected "statement"
  advance
  let condition ← self.expression .lowest
  let _ ← expect (.keyword .thenKw) "THEN"
  inlineBranch self first condition

/-- Reads the one or two keywords of an `else if` clause. -/
def elseIfKeyword (first : Token) : Parser Extent := do
  advance
  if first.kind = .keyword .elseKw then advance
  extentFrom first.extent

def elseIf (self : Recursion) : Parser (Option (ElseIf Extent)) := do
  let c ← get
  match c.head?, c.atElseIf with
  | some first, true =>
    let keyword ← elseIfKeyword first
    let condition ← self.expression .lowest
    let _ ← accept (.keyword .thenKw)
    let body ← block self Cursor.atBranchEnd
    return some (.mk keyword condition body)
  | _, _ => return none

def blockBranch (self : Recursion) (first : Token) (condition : Expr Extent) :
    Parser (Statement Extent) := do
  let thenBody ← block self Cursor.atBranchEnd
  let elseIfs ← many (elseIf self)
  let elseBody ← after (.keyword .elseKw) (block self Block.branch.atEnd)
  close .branch first.span
  return .branch (← extentFrom first.extent) condition thenBody elseIfs elseBody

def branch (self : Recursion) (first : Token) : Parser (Statement Extent) := do
  advance
  let condition ← self.expression .lowest
  let hasThen ← accept (.keyword .thenKw)
  if (← get).atBlockForm then blockBranch self first condition
  else if hasThen then inlineBranch self first condition
  else expected "THEN"

end Parser

end BrightCoverage
