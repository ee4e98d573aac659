import BrightCoverage.Text.Decimal
import BrightCoverage.Text.Quoted
import BrightCoverage.Grammar.Procedure

/-! Expressions, by precedence climbing. An operand is a primary expression with any number of
calls, members, indices and attributes after it; these bind tighter than every operator. -/

namespace BrightCoverage

def BinaryOp.precedence : BinaryOp → Precedence
  | or => .or
  | and => .and
  | equal | notEqual | lessThan | lessEqual | greaterThan | greaterEqual => .comparison
  | shiftLeft | shiftRight => .shift
  | add | subtract => .additive
  | multiply | divide | intDivide | modulo => .multiplicative
  | power => .power

def UnaryOp.precedence : UnaryOp → Precedence
  | negate => .unary
  | not => .not

def BinaryOp.ofKind? : TokenKind → Option BinaryOp
  | .keyword .orKw => some or
  | .keyword .andKw => some and
  | .keyword .modKw => some modulo
  | .symbol .equals => some equal
  | .symbol .notEquals => some notEqual
  | .symbol .lessThan => some lessThan
  | .symbol .lessEquals => some lessEqual
  | .symbol .greaterThan => some greaterThan
  | .symbol .greaterEquals => some greaterEqual
  | .symbol .shiftLeft => some BinaryOp.shiftLeft
  | .symbol .shiftRight => some BinaryOp.shiftRight
  | .symbol .plus => some add
  | .symbol .minus => some subtract
  | .symbol .star => some multiply
  | .symbol .slash => some divide
  | .symbol .backslash => some intDivide
  | .symbol .caret => some power
  | _ => none

def UnaryOp.ofKind? : TokenKind → Option UnaryOp
  | .symbol .minus => some negate
  | .keyword .notKw => some not
  | _ => none

def maxInteger : Nat :=
  0x7FFFFFFFFFFFFFFF

/-- The value of an integer literal, decimal or hexadecimal, with or without its suffix. -/
def integerValue (base : Nat) (digits : List Char) : Nat :=
  ofDigits base (digits.filter (· ≠ '&'))

def floatBits (text : List Char) : Nat :=
  readDouble (text.filter fun c => c ≠ '!' && c ≠ '#')

def unquoteText (literal : String) : String :=
  String.ofList (unquote literal.toList)

namespace Parser

/-- Reads a comma or line breaks after an item of a collection, and tells whether there were any. -/
def itemSeparator : Parser Bool := do
  let comma ← accept (.symbol .comma)
  let newline := (← peekKind) = some .newline
  skipNewlines
  return comma || newline

/-- The items of a collection up to `closing`, which is left to be read. Each item but the last is
followed by a comma or a line break; `more` tells whether the last item was. -/
def collectionItem {α : Type} (closing : TokenKind) (item : Parser α) (state : List α × Bool) :
    Parser (Option (List α × Bool)) := do
  if !state.2 then return none
  skipNewlines
  if (← peekKind) = some closing then return none
  let a ← item
  let more ← itemSeparator
  return some (a :: state.1, more)

def collection {α : Type} (closing : Symbol) (item : Parser α) : Parser (List α) := do
  let (items, _) ← repeatFrom (collectionItem (.symbol closing) item) ([], true)
  let _ ← expect (.symbol closing) closing.spelling
  return items.reverse

/-- Reads `key: value`; a key is a word or a string literal. -/
def entry (self : Recursion) : Parser (Entry Extent) := do
  let key ←
    if (← peekKind) = some .string then unquoteText <$> expect .string "key"
    else expectWord "key"
  let _ ← expect (.symbol .colon) ":"
  return .mk key (← self.expression .lowest)

def integerLiteral (literal : Token) (value : Nat) : Parser (Expr Extent) := do
  advance
  if value ≤ maxInteger then return .integer (← extentFrom literal.extent) value
  else throw (.numberOutOfRange literal)

def leaf (first : Token) (make : Extent → Expr Extent) : Parser (Expr Extent) := do
  advance
  return make (← extentFrom first.extent)

/-- Reads an expression in parentheses or brackets, which may run over several lines. -/
def enclosed (self : Recursion) (closing : Symbol) : Parser (Expr Extent) := do
  advance
  skipNewlines
  let inner ← self.expression .lowest
  skipNewlines
  let _ ← expect (.symbol closing) closing.spelling
  return inner

def primary (self : Recursion) : Parser (Expr Extent) := do
  let some token ← peek | throw (.endOfText "expression")
  let text := token.text.toList
  match token.kind with
  | .integer => integerLiteral token (integerValue 10 text)
  | .hexInteger => integerLiteral token (integerValue 16 (text.drop 2))
  | .float => leaf token fun here => .float here (floatBits text)
  | .string => leaf token fun here => .string here (unquoteText token.text)
  | .openString =>
    advance
    throw (.unterminatedString token.span)
  | .keyword .trueKw => leaf token fun here => .boolean here true
  | .keyword .falseKw => leaf token fun here => .boolean here false
  | .keyword .invalidKw => leaf token .invalid
  | .identifier => leaf token fun here => .identifier here token.text
  | .symbol .leftParen =>
    let inner ← enclosed self .rightParen
    return .grouped (← extentFrom token.extent) inner
  | .symbol .leftBracket =>
    advance
    let items ← collection .rightBracket (self.expression .lowest)
    return .array (← extentFrom token.extent) items
  | .symbol .leftBrace =>
    advance
    let entries ← collection .rightBrace (entry self)
    return .assoc (← extentFrom token.extent) entries
  | .keyword .functionKw =>
    advance
    let decl ← procedure self .function token.span
    return .procedure (← extentFrom token.extent) decl
  | .keyword .subKw =>
    advance
    let decl ← procedure self .sub token.span
    return .procedure (← extentFrom token.extent) decl
  | _ => throw (.notExpression token)

def argument (self : Recursion) : Parser (Expr Extent) := do
  skipNewlines
  let arg ← self.expression .lowest
  skipNewlines
  return arg

def arguments (self : Recursion) : Parser (List (Expr Extent)) := do
  advance
  skipNewlines
  let args ← commaSeparated .rightParen (argument self)
  let _ ← expect (.symbol .rightParen) ")"
  return args

def postfixStep (self : Recursion) (object : Expr Extent) : Parser (Option (Expr Extent)) := do
  match ← peekKind with
  | some (.symbol .leftParen) =>
    let args ← arguments self
    return some (.call (← extentFrom object.here) object args)
  | some (.symbol .dot) =>
    advance
    let name ← expectWord "member name"
    return some (.member (← extentFrom object.here) object name)
  | some (.symbol .leftBracket) =>
    let index ← enclosed self .rightBracket
    return some (.index (← extentFrom object.here) object index)
  | some (.symbol .atSign) =>
    advance
    let name ← expectWord "attribute name"
    return some (.attribute (← extentFrom object.here) object name)
  | _ => return none

def operand (self : Recursion) : Parser (Expr Extent) := do
  repeatFrom (postfixStep self) (← primary self)

def unary (self : Recursion) : Parser (Expr Extent) := do
  match ← peek with
  | some token => match UnaryOp.ofKind? token.kind with
    | some op =>
      advance
      let inner ← self.expression op.precedence
      return .unary (← extentFrom token.extent) op inner
    | none => operand self
  | none => operand self

/-- Reads a binary operator that binds tighter than `min`, and its right operand. -/
def binaryStep (self : Recursion) (min : Precedence) (left : Expr Extent) :
    Parser (Option (Expr Extent)) := do
  match (← peekKind).bind BinaryOp.ofKind? with
  | some op => if op.precedence.rank ≤ min.rank then return none else
    advance
    let right ← self.expression op.precedence
    return some (.binary (← extentFrom left.here) op left right)
  | none => return none

/-- Reads an expression whose operators all bind tighter than `min`. -/
def expression (self : Recursion) (min : Precedence) : Parser (Expr Extent) := do
  repeatFrom (binaryStep self min) (← unary self)

end Parser

end BrightCoverage
