import BrightCoverage.Grammar.Cursor

/-! Blocks of statements. A block runs up to its end, which is one keyword or `end` and a second
word; loops may end with `next` too. -/

namespace BrightCoverage

namespace Block

def opener? : Block → Option Keyword
  | branch => some .ifKw
  | forLoop => some .forKw
  | whileLoop => some .whileKw
  | procedure .function => some .functionKw
  | procedure .sub => some .subKw
  | compileIf => none

def closer? : Block → Option Keyword
  | branch => some .endIfKw
  | forLoop => some .endForKw
  | whileLoop => some .endWhileKw
  | procedure .function => some .endFunctionKw
  | procedure .sub => some .endSubKw
  | compileIf => none

def atCloser (b : Block) (c : Cursor) : Bool :=
  match b.closer? with
  | some word => c.kind? = some (.keyword word)
  | none => false

def atPair (b : Block) (c : Cursor) : Bool :=
  match b.opener? with
  | some word => c.kind? = some (.keyword .endKw) && c.kindAt? 1 = some (.keyword word)
  | none => false

def atNext (b : Block) (c : Cursor) : Bool :=
  b = forLoop && c.kind? = some (.keyword .nextKw)

def atEnd (b : Block) (c : Cursor) : Bool :=
  b.atCloser c || b.atNext c || b.atPair c

end Block

namespace Parser

/-- Reads the end of a block; `next` may name its loop variable. -/
def close (b : Block) (opener : Span) : Parser Unit := do
  let c ← get
  if b.atCloser c then advance
  else if b.atNext c then
    advance
    let _ ← accept .identifier
  else if b.atPair c then
    advance
    advance
  else if c.rest.isEmpty then throw (.missingEnd b opener)
  else expected b.closing

/-- One statement of a block, and none where the block or the text ends. -/
def blockItem (self : Recursion) (atEnd : Cursor → Bool) :
    Parser (Option (Statement Extent)) := do
  skipSeparators
  let c ← get
  if c.rest.isEmpty || atEnd c then return none
  let item ← self.statement
  if ← atStatementEnd then return some item
  else expected "end of statement"

def block (self : Recursion) (atEnd : Cursor → Bool) : Parser (List (Statement Extent)) :=
  many (blockItem self atEnd)

end Parser

end BrightCoverage
