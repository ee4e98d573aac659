import BrightCoverage.Token
import BrightCoverage.Grammar.Tree

/-! Why a text is not a program. Each error is a cause with the place that it concerns; only the
end of the text has no place. `message` is the one function that words them. -/

namespace BrightCoverage

inductive Block where
  | branch
  | forLoop
  | whileLoop
  | procedure (kind : ProcedureKind)
  | compileIf
deriving DecidableEq

namespace Block

def closing : Block → String
  | branch => "END IF"
  | forLoop => "END FOR"
  | whileLoop => "END WHILE"
  | procedure .function => "END FUNCTION"
  | procedure .sub => "END SUB"
  | compileIf => "#END IF"

end Block

inductive ParseError where
  /-- Something else was needed than the token found. -/
  | unexpected (expected : String) (found : Token)
  /-- Something was needed where the text ends. -/
  | endOfText (expected : String)
  /-- No expression starts with the token. -/
  | notExpression (found : Token)
  /-- No statement starts with the token. -/
  | notStatement (found : Token)
  /-- The target of an assignment is neither a name nor a member nor an indexed place. -/
  | notAssignable (target : Span)
  /-- An expression that is no call stands where a statement is needed. -/
  | danglingExpression (span : Span)
  | unknownDirective (span : Span) (name : String)
  | numberOutOfRange (literal : Token)
  | unterminatedString (span : Span)
  | invalidCharacter (found : Token)
  /-- The text ends inside a block. -/
  | missingEnd (block : Block) (opener : Span)
  /-- `end` and a block's keyword stand outside such a block. -/
  | strayEnd (span : Span) (word : String)
  /-- A directive that continues or closes `#if` stands outside of it. -/
  | strayDirective (span : Span) (name : String)
deriving DecidableEq

namespace ParseError

def span : ParseError → Option Span
  | endOfText _ => none
  | unexpected _ found | notExpression found | notStatement found | invalidCharacter found =>
    some found.span
  | numberOutOfRange literal => some literal.span
  | notAssignable span | danglingExpression span | unknownDirective span _
  | unterminatedString span | missingEnd _ span | strayEnd span _ | strayDirective span _ =>
    some span

def message : ParseError → String
  | unexpected expected found => "expected " ++ expected ++ ", found " ++ found.describe
  | endOfText expected => "unexpected end of file, expected " ++ expected
  | notExpression found =>
    "invalid expression: expected expression, found "
      ++ (if found.kind = .newline then "end of line" else found.describe)
  | notStatement found => "invalid statement: unexpected token `" ++ found.text ++ "`"
  | notAssignable _ => "invalid statement: invalid assignment target"
  | danglingExpression _ => "invalid statement: expected assignment or call"
  | unknownDirective _ name => "invalid statement: unknown directive `#" ++ name ++ "`"
  | numberOutOfRange literal => "invalid number: `" ++ literal.text ++ "` is out of range"
  | unterminatedString _ => "unterminated string literal"
  | invalidCharacter found => "invalid character `" ++ found.text ++ "`"
  | missingEnd .forLoop _ => "missing END FOR for FOR loop"
  | missingEnd .whileLoop _ => "missing END WHILE for WHILE loop"
  | missingEnd block _ => "missing " ++ block.closing
  | strayEnd _ word => "`end " ++ word ++ "` without a matching opener"
  | strayDirective _ name => "`#" ++ name ++ "` without a matching `#if`"

end ParseError

end BrightCoverage
