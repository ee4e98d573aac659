import BrightCoverage.Grammar.Block

/-! Procedures, named and anonymous: parameters, the type of the result, the body and its end. -/

namespace BrightCoverage.Parser

/-- Reads `name [= default] [as type]`. -/
def parameter (self : Recursion) : Parser (Parameter Extent) := do
  let name ← expectWord "parameter name"
  let default ← after (.symbol .equals) (self.expression .lowest)
  let type ← after (.keyword .asKw) (expectWord "type name")
  return .mk name default type

def parameters (self : Recursion) : Parser (List (Parameter Extent)) := do
  let _ ← expect (.symbol .leftParen) "("
  let params ← commaSeparated .rightParen (parameter self)
  let _ ← expect (.symbol .rightParen) ")"
  return params

def procedure (self : Recursion) (keyword : ProcedureKind) (opener : Span) :
    Parser (Procedure Extent) := do
  let params ← parameters self
  let returns ← after (.keyword .asKw) (expectWord "return type")
  let body ← block self (Block.procedure keyword).atEnd
  close (.procedure keyword) opener
  return .mk keyword params returns body

end BrightCoverage.Parser
