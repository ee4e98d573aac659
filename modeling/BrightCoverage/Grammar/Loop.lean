import BrightCoverage.Grammar.Block

/-! Loops: `for`, `for each` and `while`. -/

namespace BrightCoverage.Parser

def forEach (self : Recursion) (first : Token) : Parser (Statement Extent) := do
  let item ← expect .identifier "loop variable"
  let _ ← expect (.keyword .inKw) "IN"
  let target ← self.expression .lowest
  let body ← block self Block.forLoop.atEnd
  close .forLoop first.span
  return .forEach (← extentFrom first.extent) item target body

def countedLoop (self : Recursion) (first : Token) : Parser (Statement Extent) := do
  let counter ← expect .identifier "loop variable"
  let _ ← expect (.symbol .equals) "="
  let start ← self.expression .lowest
  let _ ← expect (.keyword .toKw) "TO"
  let stop ← self.expression .lowest
  let step ← after (.keyword .stepKw) (self.expression .lowest)
  let body ← block self Block.forLoop.atEnd
  close .forLoop first.span
  return .forLoop (← extentFrom first.extent) counter start stop step body

def forLoop (self : Recursion) (first : Token) : Parser (Statement Extent) := do
  advance
  if ← accept (.keyword .eachKw) then forEach self first
  else countedLoop self first

def whileLoop (self : Recursion) (first : Token) : Parser (Statement Extent) := do
  advance
  let condition ← self.expression .lowest
  let body ← block self Block.whileLoop.atEnd
  close .whileLoop first.span
  return .whileLoop (← extentFrom first.extent) condition body

end BrightCoverage.Parser
