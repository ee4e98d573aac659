import BrightCoverage.Coverage.Instrument
import BrightCoverage.Grammar.Program

/-! Parsers over an array of tokens. They read the same grammar with nothing but the index of the next
token and the list of errors as their state, so what can go wrong is visible: an index that is not
there, a text that is cut inside a character, a token taken for granted, a value or another round of a
loop without a token read, an index that moves back or a recursion that is too deep. Each of these is a
fault, which no parser can answer. A parser that fails says no more than that it failed; what is wrong
is what it has added to the list. -/

namespace BrightCoverage

/-- Why there is no value: the tokens are not what is needed, or something is out of bounds. -/
inductive Halt where
  | error
  | fault
deriving DecidableEq

/-- How far a file has been read, and the errors so far. -/
structure Progress where
  index : Nat
  errors : List ParseError

abbrev Indexed := ReaderT (List Token) (EStateM Halt Progress)

namespace Indexed

variable {α β : Type}

/-! ### Tokens -/

def fault : Indexed α :=
  throw .fault

/-- What is wrong is recorded before a parser fails. -/
def fail (e : ParseError) : Indexed α := do
  modify fun s => { s with errors := s.errors ++ [e] }
  throw .error

def current : Indexed Nat := do
  return (← get).index

/-- What is there, which is taken for granted. -/
def unwrap : Option α → Indexed α
  | some a => return a
  | none => fault

def before (i : Nat) : Indexed Nat :=
  if i = 0 then fault else return i - 1

def peek : Indexed (Option Token) := do
  return (← read)[← current]?

def peekKind : Indexed (Option TokenKind) := do
  return (← peek).map Token.kind

def look (see : Cursor → β) : Indexed β := do
  return see (.ofTokens ((← read).drop (← current)))

def advance : Indexed (Option Token) := do
  if (← current) < (← read).length then modify fun s => { s with index := s.index + 1 }
  return (← read)[← before (← current)]?

def taken : Indexed Token := do
  unwrap (← advance)

def accept (kind : TokenKind) : Indexed Bool := do
  if (← peekKind) = some kind then
    let _ ← advance
    return true
  else return false

def expected (what : String) : Indexed α := do
  match ← peek with
  | some token => fail (.unexpected what token)
  | none => fail (.endOfText what)

def expect (kind : TokenKind) (what : String) : Indexed String := do
  let some token ← peek | expected what
  if token.kind = kind then return (← taken).text
  else expected what

def expectWord (what : String) : Indexed String := do
  let some token ← peek | expected what
  if token.isWord then return (← taken).text
  else expected what

def tokenSpan (index : Nat) : Indexed Span := do
  return (← unwrap (← read)[index]?).span

/-- The extent from the token at an index through the last token read. -/
def extentFrom (start : Nat) : Indexed Extent := do
  let tokens ← read
  let first ← unwrap tokens[start]?
  let i ← current
  let last := if start < i then tokens[i - 1]?.getD first else first
  return first.extent.through last.extent

/-! ### Loops -/

/-- A parser that may give a value only when it has read a token. -/
def consuming (p : Indexed α) : Indexed α := fun ts s =>
  match p ts s with
  | .ok a s' => if s.index < s'.index ∧ s'.index ≤ ts.length then .ok a s' else .error .fault s'
  | .error h s' => if s.index ≤ s'.index ∧ s'.index ≤ ts.length then .error h s' else .error .fault s'

/-- Repeats a step as long as it gives something, which it may do only when it has read a token. -/
def repeatFrom (step : β → Indexed (Option β)) (b : β) : Indexed β := fun ts s =>
  match step b ts s with
  | .ok none s' => .ok b s'
  | .ok (some b) s' =>
    if s.index < s'.index ∧ s'.index ≤ ts.length then repeatFrom step b ts s' else .error .fault s'
  | .error h s' => .error h s'
termination_by ts s => ts.length - s.index

/-- The values of a step as long as it gives some, which it may do only when it has read a token. -/
def many (step : Indexed (Option α)) : Indexed (List α) := fun ts s =>
  match step ts s with
  | .ok none s' => .ok [] s'
  | .ok (some a) s' =>
    if s.index < s'.index ∧ s'.index ≤ ts.length then
      match many step ts s' with
      | .ok values reached => .ok (a :: values) reached
      | .error h reached => .error h reached
    else .error .fault s'
  | .error h s' => .error h s'
termination_by ts s => ts.length - s.index

def skipOne (kinds : List TokenKind) : Indexed (Option Unit) := do
  let some token ← peek | return none
  if token.kind ∈ kinds then
    let _ ← advance
    return some ()
  else return none

def skip (kinds : List TokenKind) : Indexed Unit :=
  repeatFrom (fun _ => skipOne kinds) ()

def skipNewlines : Indexed Unit :=
  skip [.newline]

def skipSeparators : Indexed Unit :=
  skip [.newline, .symbol .colon]

def after (kind : TokenKind) (rest : Indexed α) : Indexed (Option α) := do
  if ← accept kind then return some (← rest)
  else return none

def commaSeparated (closing : Symbol) (item : Indexed α) : Indexed (List α) := do
  if (← peekKind) = some (.symbol closing) then return []
  let first ← item
  return first :: (← many (after (.symbol .comma) item))

structure Recursion where
  expression : Precedence → Indexed (Expr Extent)
  statement : Indexed (Statement Extent)
  inlineElseIf : Indexed (Statement Extent)

variable (self : Recursion)

/-! ### Blocks and procedures -/

def close (b : Block) (start : Nat) : Indexed Unit := consuming do
  if ← look b.atCloser then
    let _ ← advance
  else if ← look b.atNext then
    let _ ← advance
    let _ ← accept .identifier
  else if ← look b.atPair then
    let _ ← advance
    let _ ← advance
  else if (← peek).isNone then fail (.missingEnd b (← tokenSpan start))
  else expected b.closing

def blockItem (atEnd : Indexed Bool) : Indexed (Option (Statement Extent)) := do
  skipSeparators
  if (← peek).isNone then return none
  if ← atEnd then return none
  let item ← self.statement
  if ← look Cursor.atStatementEnd then return some item
  else expected "end of statement"

def block (atEnd : Indexed Bool) : Indexed (List (Statement Extent)) :=
  many (blockItem self atEnd)

def parameter : Indexed (Parameter Extent) := consuming do
  let name ← expectWord "parameter name"
  let default ← after (.symbol .equals) (self.expression .lowest)
  let type ← after (.keyword .asKw) (expectWord "type name")
  return .mk name default type

def parameters : Indexed (List (Parameter Extent)) := consuming do
  let _ ← expect (.symbol .leftParen) "("
  let params ← commaSeparated .rightParen (parameter self)
  let _ ← expect (.symbol .rightParen) ")"
  return params

def procedure (keyword : ProcedureKind) (start : Nat) : Indexed (Procedure Extent) := consuming do
  let params ← parameters self
  let returns ← after (.keyword .asKw) (expectWord "return type")
  let body ← block self (look (Block.procedure keyword).atEnd)
  close (.procedure keyword) start
  return .mk keyword params returns body

/-! ### Expressions -/

def itemSeparator : Indexed Bool := do
  let comma ← accept (.symbol .comma)
  let newline := (← peekKind) = some .newline
  skipNewlines
  return comma || newline

def collectionItem (closing : TokenKind) (item : Indexed α) (state : List α × Bool) :
    Indexed (Option (List α × Bool)) := do
  if !state.2 then return none
  skipNewlines
  if (← peekKind) = some closing then return none
  let a ← item
  let more ← itemSeparator
  return some (a :: state.1, more)

def collection (closing : Symbol) (item : Indexed α) : Indexed (List α) := do
  let (items, _) ← repeatFrom (collectionItem (.symbol closing) item) ([], true)
  let _ ← expect (.symbol closing) closing.spelling
  return items.reverse

def key : Indexed String := do
  if (← peekKind) = some .string then return unquoteText (← taken).text
  else expectWord "key"

def entry : Indexed (Entry Extent) := consuming do
  let name ← key
  let _ ← expect (.symbol .colon) ":"
  return .mk name (← self.expression .lowest)

def number (literal : Token) (start value : Nat) : Indexed (Expr Extent) := do
  if value ≤ maxInteger then return .integer (← extentFrom start) value
  else fail (.numberOutOfRange literal)

def leaf (make : Extent → Expr Extent) : Indexed (Expr Extent) := do
  let start ← current
  let _ ← advance
  return make (← extentFrom start)

def enclosed (closing : Symbol) : Indexed (Expr Extent) := do
  let _ ← advance
  skipNewlines
  let inner ← self.expression .lowest
  skipNewlines
  let _ ← expect (.symbol closing) closing.spelling
  return inner

def primary : Indexed (Expr Extent) := consuming do
  let start ← current
  let some token ← peek | fail (.endOfText "expression")
  let text := token.text.toList
  match token.kind with
  | .integer =>
    let _ ← advance
    number token start (integerValue 10 text)
  | .hexInteger =>
    let _ ← advance
    let (_, digits) ← unwrap (cutAtByte 2 text)
    number token start (integerValue 16 digits)
  | .float => leaf fun here => .float here (floatBits text)
  | .string => leaf fun here => .string here (unquoteText token.text)
  | .openString =>
    let _ ← advance
    fail (.unterminatedString token.span)
  | .keyword .trueKw => leaf fun here => .boolean here true
  | .keyword .falseKw => leaf fun here => .boolean here false
  | .keyword .invalidKw => leaf .invalid
  | .identifier => leaf fun here => .identifier here token.text
  | .symbol .leftParen =>
    let inner ← enclosed self .rightParen
    return .grouped (← extentFrom start) inner
  | .symbol .leftBracket =>
    let _ ← advance
    let items ← collection .rightBracket (self.expression .lowest)
    return .array (← extentFrom start) items
  | .symbol .leftBrace =>
    let _ ← advance
    let entries ← collection .rightBrace (entry self)
    return .assoc (← extentFrom start) entries
  | .keyword .functionKw =>
    let _ ← advance
    let decl ← procedure self .function start
    return .procedure (← extentFrom start) decl
  | .keyword .subKw =>
    let _ ← advance
    let decl ← procedure self .sub start
    return .procedure (← extentFrom start) decl
  | _ => fail (.notExpression token)

def argument : Indexed (Expr Extent) := do
  skipNewlines
  let arg ← self.expression .lowest
  skipNewlines
  return arg

def arguments : Indexed (List (Expr Extent)) := consuming do
  let _ ← advance
  skipNewlines
  let args ← commaSeparated .rightParen (argument self)
  let _ ← expect (.symbol .rightParen) ")"
  return args

def postfixStep (start : Nat) (object : Expr Extent) : Indexed (Option (Expr Extent)) := do
  match ← peekKind with
  | some (.symbol .leftParen) =>
    let args ← arguments self
    return some (.call (← extentFrom start) object args)
  | some (.symbol .dot) =>
    let _ ← advance
    let name ← expectWord "member name"
    return some (.member (← extentFrom start) object name)
  | some (.symbol .leftBracket) =>
    let index ← enclosed self .rightBracket
    return some (.index (← extentFrom start) object index)
  | some (.symbol .atSign) =>
    let _ ← advance
    let name ← expectWord "attribute name"
    return some (.attribute (← extentFrom start) object name)
  | _ => return none

def operand : Indexed (Expr Extent) := consuming do
  let start ← current
  repeatFrom (postfixStep self start) (← primary self)

def unary : Indexed (Expr Extent) := consuming do
  let start ← current
  match (← peekKind).bind UnaryOp.ofKind? with
  | some op =>
    let _ ← advance
    let inner ← self.expression op.precedence
    return .unary (← extentFrom start) op inner
  | none => operand self

def binaryStep (min : Precedence) (start : Nat) (left : Expr Extent) :
    Indexed (Option (Expr Extent)) := do
  match (← peekKind).bind BinaryOp.ofKind? with
  | some op => if op.precedence.rank ≤ min.rank then return none else
    let _ ← advance
    let right ← self.expression op.precedence
    return some (.binary (← extentFrom start) op left right)
  | none => return none

def expression (min : Precedence) : Indexed (Expr Extent) := consuming do
  let start ← current
  repeatFrom (binaryStep self min start) (← unary self)

/-! ### Branches and loops -/

def inlineItem : Indexed (Option (Statement Extent)) := do
  if ← accept (.symbol .colon) then
    if ← look Cursor.atInlineEnd then return none
    return some (← self.statement)
  else return none

def inlineStatements : Indexed (List (Statement Extent)) := consuming do
  let first ← self.statement
  return first :: (← many (inlineItem self))

def inlineElse : Indexed (Option (List (Statement Extent))) := do
  match ← peekKind with
  | some (.keyword .elseIfKw) => return some [← self.inlineElseIf]
  | some (.keyword .elseKw) =>
    let _ ← advance
    return some (← inlineStatements self)
  | _ => return none

def inlineBranch (start : Nat) (condition : Expr Extent) : Indexed (Statement Extent) := consuming do
  let thenBody ← inlineStatements self
  let elseBody ← inlineElse self
  return .branch (← extentFrom start) condition thenBody [] elseBody

def inlineElseIf : Indexed (Statement Extent) := consuming do
  let start ← current
  let _ ← advance
  let condition ← self.expression .lowest
  let _ ← expect (.keyword .thenKw) "THEN"
  inlineBranch self start condition

def elseIfKeyword : Indexed Extent := do
  let start ← current
  if !(← accept (.keyword .elseIfKw)) then
    let _ ← advance
    let _ ← advance
  extentFrom start

def elseIfClause : Indexed (ElseIf Extent) := consuming do
  let keyword ← elseIfKeyword
  let condition ← self.expression .lowest
  let _ ← accept (.keyword .thenKw)
  let body ← block self (look Cursor.atBranchEnd)
  return .mk keyword condition body

def elseIf : Indexed (Option (ElseIf Extent)) := do
  if ← look Cursor.atElseIf then return some (← elseIfClause self)
  else return none

def blockBranch (start : Nat) (condition : Expr Extent) : Indexed (Statement Extent) := do
  let thenBody ← block self (look Cursor.atBranchEnd)
  let elseIfs ← many (elseIf self)
  let elseBody ← after (.keyword .elseKw) (block self (look Block.branch.atEnd))
  close .branch start
  return .branch (← extentFrom start) condition thenBody elseIfs elseBody

def branch : Indexed (Statement Extent) := consuming do
  let start ← current
  let _ ← advance
  let condition ← self.expression .lowest
  let hasThen ← accept (.keyword .thenKw)
  if ← look Cursor.atBlockForm then blockBranch self start condition
  else if hasThen then inlineBranch self start condition
  else expected "THEN"

def forEach (start : Nat) : Indexed (Statement Extent) := consuming do
  let item ← expect .identifier "loop variable"
  let _ ← expect (.keyword .inKw) "IN"
  let target ← self.expression .lowest
  let body ← block self (look Block.forLoop.atEnd)
  close .forLoop start
  return .forEach (← extentFrom start) item target body

def countedLoop (start : Nat) : Indexed (Statement Extent) := consuming do
  let counter ← expect .identifier "loop variable"
  let _ ← expect (.symbol .equals) "="
  let low ← self.expression .lowest
  let _ ← expect (.keyword .toKw) "TO"
  let high ← self.expression .lowest
  let step ← after (.keyword .stepKw) (self.expression .lowest)
  let body ← block self (look Block.forLoop.atEnd)
  close .forLoop start
  return .forLoop (← extentFrom start) counter low high step body

def forLoop : Indexed (Statement Extent) := consuming do
  let start ← current
  let _ ← advance
  if ← accept (.keyword .eachKw) then forEach self start
  else countedLoop self start

def whileLoop : Indexed (Statement Extent) := consuming do
  let start ← current
  let _ ← advance
  let condition ← self.expression .lowest
  let body ← block self (look Block.whileLoop.atEnd)
  close .whileLoop start
  return .whileLoop (← extentFrom start) condition body

/-! ### Directives -/

/-- What follows the word `if`, if that word comes first. The text is cut behind two bytes. -/
def afterIf (text : Text) : Indexed (Option Text) := do
  let rest := trimLeft text
  let some (word, _) := cutAtByte 2 rest | return none
  let (_, behind) ← unwrap (cutAtByte 2 rest)
  let endsWord := match behind with
    | [] => true
    | c :: _ => !c.isAlphanum && c ≠ '_'
  return if Directive.lower word = ['i', 'f'] && endsWord then some behind else none

/-- Takes a directive line apart. The word is cut off by its length in bytes. -/
def splitDirective (line : Text) : Indexed Directive := do
  let body := trimLeft (line.dropWhile (· = '#'))
  let (name, rest) ← unwrap (cutAtByte (byteLength (body.takeWhile Char.isAlpha)) body)
  let word := String.ofList (Directive.lower name)
  match word with
  | "else" =>
    let some args ← afterIf rest | return ⟨some .elseDir, name, trim rest⟩
    return ⟨some .elseIfDir, name, trim args⟩
  | "end" =>
    let some args ← afterIf rest | return ⟨none, name, trim rest⟩
    return ⟨some .endIfDir, name, trim args⟩
  | _ => return ⟨Directive.kindOfWord word, name, trim rest⟩

def nextDirective : Indexed (Option DirectiveKind) := do
  let some token ← peek | return none
  if token.kind = .directive then return (← splitDirective token.text.toList).kind
  else return none

def atDirectiveEnd : Indexed Bool := do
  match ← nextDirective with
  | some .elseIfDir | some .elseDir | some .endIfDir => return true
  | _ => return false

def compileElseIf : Indexed (Option (CompileElseIf Extent)) := do
  if (← nextDirective) = some .elseIfDir then
    let line ← splitDirective (← taken).text.toList
    let body ← block self atDirectiveEnd
    return some (.mk (String.ofList line.args) body)
  else return none

def compileElse : Indexed (Option (List (Statement Extent))) := do
  if (← nextDirective) = some .elseDir then
    let _ ← advance
    return some (← block self atDirectiveEnd)
  else return none

def compileIf (start : Nat) (condition : String) : Indexed (Statement Extent) := consuming do
  let thenBody ← block self atDirectiveEnd
  let elseIfs ← many (compileElseIf self)
  let elseBody ← compileElse self
  match ← nextDirective with
  | some .endIfDir =>
    let _ ← advance
    return .compileIf (← extentFrom start) condition thenBody elseIfs elseBody
  | some _ => expected "#end if"
  | none => fail (.missingEnd .compileIf (← tokenSpan start))

def directive : Indexed (Statement Extent) := consuming do
  let start ← current
  let span ← tokenSpan start
  let line ← splitDirective (← taken).text.toList
  let name := String.ofList (Directive.lower line.name)
  match line.kind with
  | some .ifDir => compileIf self start (String.ofList line.args)
  | some .constDir | some .errorDir =>
    return .directive (← extentFrom start) name (String.ofList line.args)
  | some .elseIfDir | some .elseDir | some .endIfDir => fail (.strayDirective span name)
  | none => fail (.unknownDirective span (String.ofList line.name))

/-! ### Statements -/

def printStep (items : List (PrintItem Extent)) : Indexed (Option (List (PrintItem Extent))) := do
  if ← look Cursor.atStatementEnd then return none
  match (← peekKind).bind PrintSeparator.ofKind? with
  | some separator =>
    let _ ← advance
    return some (Parser.separateLast separator items)
  | none =>
    let value ← self.expression .lowest
    return some (.mk value none :: items)

def print : Indexed (Statement Extent) := consuming do
  let start ← current
  let _ ← advance
  let items ← repeatFrom (printStep self) []
  return .print (← extentFrom start) items.reverse

def assignTo (start : Nat) (target : Expr Extent) (op : AssignOp) (value : Expr Extent) :
    Indexed (Statement Extent) := do
  match target with
  | .identifier _ name => return .assign (← extentFrom start) name op value
  | .member _ object name => return .assignMember (← extentFrom start) object name op value
  | .index _ object index => return .assignIndex (← extentFrom start) object index op value
  | _ => fail (.notAssignable target.here.span)

def callStatement (start : Nat) (target : Expr Extent) : Indexed (Statement Extent) := do
  match target, ← peek with
  | .call .., _ => return .call (← extentFrom start) target
  | _, some token => fail (.danglingExpression (target.here.span.merge token.span))
  | _, none => fail (.danglingExpression target.here.span)

def operandStatement : Indexed (Statement Extent) := consuming do
  let start ← current
  let target ← operand self
  let kind ← peekKind
  match kind.bind AssignOp.ofKind? with
  | some op =>
    let _ ← advance
    let value ← self.expression .lowest
    assignTo start target op value
  | none =>
    if kind = some (.symbol .plusPlus) || kind = some (.symbol .minusMinus) then
      let _ ← advance
      return .increment (← extentFrom start) target (kind = some (.symbol .minusMinus))
    else callStatement start target

def label : Indexed (Statement Extent) := consuming do
  let start ← current
  let name := (← taken).text
  let _ ← advance
  return .label (← extentFrom start) name

def goto : Indexed (Statement Extent) := consuming do
  let start ← current
  let _ ← advance
  let name ← expect .identifier "label name"
  return .goto (← extentFrom start) name

def giveBack : Indexed (Statement Extent) := consuming do
  let start ← current
  let _ ← advance
  if ← look Cursor.atStatementEnd then return .giveBack (← extentFrom start) none
  let value ← self.expression .lowest
  return .giveBack (← extentFrom start) (some value)

def exitedLoop : Indexed LoopKind := do
  if ← accept (.keyword .forKw) then return .counted
  if ← accept (.keyword .whileKw) then return .conditional
  expected "FOR or WHILE after EXIT"

def exit : Indexed (Statement Extent) := consuming do
  let start ← current
  if ← accept (.keyword .exitWhileKw) then return .exit (← extentFrom start) .conditional
  let _ ← advance
  let loop ← exitedLoop
  return .exit (← extentFrom start) loop

def endProgram : Indexed (Statement Extent) := consuming do
  let start ← current
  let span ← tokenSpan start
  let _ ← advance
  let some token ← peek | return .endProgram (← extentFrom start)
  if token.kind ∈ [.keyword .ifKw, .keyword .forKw, .keyword .whileKw, .keyword .subKw,
      .keyword .functionKw] then
    fail (.strayEnd (span.merge token.span) token.text)
  else return .endProgram (← extentFrom start)

def stop : Indexed (Statement Extent) := consuming do
  let start ← current
  let _ ← advance
  return .stop (← extentFrom start)

def dim : Indexed (Statement Extent) := consuming do
  let start ← current
  let _ ← advance
  let name ← expect .identifier "array name"
  let _ ← expect (.symbol .leftBracket) "["
  let size ← self.expression .lowest
  let sizes ← many (after (.symbol .comma) (self.expression .lowest))
  let _ ← expect (.symbol .rightBracket) "]"
  return .dim (← extentFrom start) name (size :: sizes)

def library : Indexed (Statement Extent) := consuming do
  let start ← current
  let _ ← advance
  let path ← expect .string "library path string"
  return .library (← extentFrom start) (unquoteText path)

def namedProcedure (keyword : ProcedureKind) : Indexed (Statement Extent) := consuming do
  let start ← current
  let _ ← advance
  let name ← expect .identifier "function name"
  let decl ← procedure self keyword start
  return .procedure (← extentFrom start) name decl

def statement : Indexed (Statement Extent) := consuming do
  let some first ← peek | fail (.endOfText "statement")
  match first.kind with
  | .keyword .printKw | .symbol .question => print self
  | .keyword .ifKw => branch self
  | .keyword .forKw => forLoop self
  | .keyword .whileKw => whileLoop self
  | .keyword .gotoKw => goto
  | .keyword .returnKw => giveBack self
  | .keyword .exitKw | .keyword .exitWhileKw => exit
  | .keyword .endKw => endProgram
  | .keyword .stopKw => stop
  | .keyword .functionKw => namedProcedure self .function
  | .keyword .subKw => namedProcedure self .sub
  | .keyword .dimKw => dim self
  | .keyword .libraryKw => library
  | .directive => directive self
  | .identifier => if ← look Parser.atLabel then label else operandStatement self
  | .openString => fail (.unterminatedString first.span)
  | _ => fail (.notStatement first)

/-! ### Whole files -/

def ofDepth : Nat → Recursion
  | 0 =>
    { expression := fun _ => fault
      statement := fault
      inlineElseIf := fault }
  | depth + 1 =>
    let self := ofDepth depth
    { expression := expression self
      statement := statement self
      inlineElseIf := inlineElseIf self }

/-- What a parser gives, if it does not fail. A fault is nothing that could be caught. -/
def attempt (p : Indexed α) : Indexed (Option α) := fun ts s =>
  match p ts s with
  | .ok a s' => .ok (some a) s'
  | .error .error s' => .ok none s'
  | .error .fault s' => .error .fault s'

def wholeStatement : Indexed (Statement Extent) := do
  let s ← self.statement
  if ← look Cursor.atStatementEnd then return s
  else expected "end of statement"

/-- Gives up one more token, unless reading may go on here. -/
def resumeStep : Indexed (Option Unit) := do
  let some token ← peek | return none
  if ((← read)[← before (← current)]?).map Token.kind = some .newline then return none
  if Cursor.resumesAt token.kind then return none
  let _ ← advance
  return some ()

def synchronize : Indexed Unit := do
  let _ ← advance
  repeatFrom (fun _ => resumeStep) ()

/-- Reads one statement of a file, or gives up what stands in its place. -/
def outcome : Indexed (Option (Statement Extent)) := do
  let s ← attempt (wholeStatement self)
  if s.isNone then synchronize
  return s

/-- What the next statement of a file comes to, if one follows. -/
def round : Indexed (Option (Option (Statement Extent))) := do
  if (← peek).isNone then return none
  skipSeparators
  if (← peek).isNone then return none
  return some (← outcome self)

/-- What the tokens of a file come to, unless there is a fault. The invalid characters are recorded
first, and the file is accepted if the list of errors is empty in the end. -/
def parseTokens (tokens : List Token) :
    Option (Except (List ParseError) (List (Statement Extent))) :=
  match many (round (ofDepth (tokens.length + 1))) tokens ⟨0, invalidCharacters tokens⟩ with
  | .ok outcomes reached =>
    match reached.errors with
    | [] => some (.ok outcomes.reduceOption)
    | errors => some (.error errors)
  | .error _ _ => none

end Indexed

end BrightCoverage
