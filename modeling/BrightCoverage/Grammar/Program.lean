import BrightCoverage.Token.Lexer
import BrightCoverage.Grammar.Statement

/-! Whole files. Statements are read one after another; where one fails, its error is kept and
reading goes on at the next line or at a keyword that starts a statement. A file is accepted when
there is no error at all. -/

namespace BrightCoverage

namespace Recursion

/-- The parsers for texts in which they nest at most `depth` times. Each level reads a token before
it goes one deeper, so the number of tokens bounds the depth. -/
def ofDepth : Nat → Recursion
  | 0 =>
    { expression := fun _ => Parser.expected "expression"
      statement := Parser.expected "statement"
      inlineElseIf := Parser.expected "statement" }
  | depth + 1 =>
    let self := ofDepth depth
    { expression := Parser.expression self
      statement := Parser.statement self
      inlineElseIf := Parser.inlineElseIf self }

end Recursion

namespace Cursor

def resumesAt (kind : TokenKind) : Bool :=
  kind ∈ [.keyword .printKw, .keyword .ifKw, .keyword .forKw, .keyword .whileKw,
    .keyword .functionKw, .keyword .subKw, .keyword .returnKw]

def resume (token : Token) : List Token → Cursor
  | [] => ⟨token.extent, []⟩
  | next :: rest =>
    if token.kind = .newline || resumesAt next.kind then ⟨token.extent, next :: rest⟩
    else resume next rest

/-- Where reading goes on after an error; at least one token is given up. -/
def synchronize (c : Cursor) : Cursor :=
  match c.rest with
  | [] => c
  | token :: rest => resume token rest

end Cursor

/-- What has been read of a file: its statements and the errors found. -/
structure Reading where
  statements : List (Statement Extent)
  errors : List ParseError

namespace Reading

def done : Reading :=
  ⟨[], []⟩

def addStatement (s : Statement Extent) (r : Reading) : Reading :=
  { r with statements := s :: r.statements }

def addError (e : ParseError) (r : Reading) : Reading :=
  { r with errors := e :: r.errors }

end Reading

/-- One statement, which has to end where a statement may end. -/
def wholeStatement (self : Recursion) : Parser (Statement Extent) := do
  let s ← self.statement
  if ← Parser.atStatementEnd then return s
  Parser.expected "end of statement"

/-- Reads the statements of a file in at most `rounds` rounds. Every round reads a token. -/
def readStatements (self : Recursion) : Nat → Cursor → Reading
  | 0, _ => .done
  | rounds + 1, c =>
    let c := c.skipSeparators
    if c.rest.isEmpty then .done
    else match wholeStatement self c with
      | .ok s c => (readStatements self rounds c).addStatement s
      | .error e c => (readStatements self rounds c.synchronize).addError e

/-- The errors for the tokens that are none. -/
def invalidCharacters (tokens : List Token) : List ParseError :=
  (tokens.filter (·.kind = .unknown)).map .invalidCharacter

/-- The statements that a list of tokens spells, or all errors: first the invalid characters, then
the others in the order in which they were found. -/
def parseTokens (tokens : List Token) : Except (List ParseError) (List (Statement Extent)) :=
  let depth := tokens.length + 1
  let reading := readStatements (Recursion.ofDepth depth) depth (Cursor.ofTokens tokens)
  match invalidCharacters tokens ++ reading.errors with
  | [] => .ok reading.statements
  | errors => .error errors

def parse (source : Text) : Except (List ParseError) (List (Statement Extent)) :=
  parseTokens (lex source)

end BrightCoverage
