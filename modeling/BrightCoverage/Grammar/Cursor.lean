import BrightCoverage.Grammar.Error

/-! Reading tokens. A cursor holds the tokens still to be read and the extent of the last one read,
at which a finished node ends. A parser moves the cursor and either gives a value or stops with one
error, and then the cursor stays where the error was found. -/

namespace BrightCoverage

structure Cursor where
  last : Extent
  rest : List Token
deriving DecidableEq

namespace Cursor

def ofTokens (tokens : List Token) : Cursor :=
  ⟨Mark.origin.extentTo Mark.origin, tokens⟩

def head? (c : Cursor) : Option Token :=
  c.rest.head?

def kind? (c : Cursor) : Option TokenKind :=
  c.rest.head?.map Token.kind

def kindAt? (c : Cursor) (n : Nat) : Option TokenKind :=
  c.rest[n]?.map Token.kind

def next : Cursor → Cursor
  | ⟨last, []⟩ => ⟨last, []⟩
  | ⟨_, token :: rest⟩ => ⟨token.extent, rest⟩

/-- Reads tokens of the given kinds as long as they come. -/
def skip (kinds : List TokenKind) (last : Extent) : List Token → Cursor
  | [] => ⟨last, []⟩
  | token :: rest =>
    if token.kind ∈ kinds then skip kinds token.extent rest else ⟨last, token :: rest⟩

def skipSeparators (c : Cursor) : Cursor :=
  skip [.newline, .symbol .colon] c.last c.rest

/-- Whether a statement may end here. `else` ends the statements of an `if` on one line. -/
def atStatementEnd (c : Cursor) : Bool :=
  match c.kind? with
  | none | some .newline | some (.symbol .colon) | some (.keyword .elseKw)
  | some (.keyword .elseIfKw) => true
  | _ => false

end Cursor

/-- What reads tokens: a value and the cursor after it, or one error and the cursor at it. -/
abbrev Parser := EStateM ParseError Cursor

namespace Parser

variable {α β : Type}

def peek : Parser (Option Token) := do
  return (← get).head?

def peekKind : Parser (Option TokenKind) := do
  return (← get).kind?

def advance : Parser Unit :=
  modify Cursor.next

def accept (kind : TokenKind) : Parser Bool := do
  if (← peekKind) = some kind then
    advance
    return true
  else return false

def expected (what : String) : Parser α := do
  match ← peek with
  | some token => throw (.unexpected what token)
  | none => throw (.endOfText what)

def expect (kind : TokenKind) (what : String) : Parser String := do
  let some token ← peek | expected what
  if token.kind = kind then
    advance
    return token.text
  else expected what

def expectWord (what : String) : Parser String := do
  let some token ← peek | expected what
  if token.isWord then
    advance
    return token.text
  else expected what

def skipNewlines : Parser Unit :=
  modify fun c => Cursor.skip [.newline] c.last c.rest

def skipSeparators : Parser Unit :=
  modify Cursor.skipSeparators

def atStatementEnd : Parser Bool := do
  return (← get).atStatementEnd

/-- The extent of a node that starts with `first` and ends with the last token read. -/
def extentFrom (first : Extent) : Parser Extent := do
  return first.through (← get).last

/-- Repeats a step up to the first that gives nothing, with one step more than there are tokens
in the list. -/
def iterate (step : β → Parser (Option β)) : List Token → β → Parser β
  | [], b => do return (← step b).getD b
  | _ :: tokens, b => do
    let some next ← step b | return b
    iterate step tokens next

/-- Repeats a step up to the first that gives nothing. A step that goes on reads a token, so the
tokens that are left bound the steps. -/
def repeatFrom (step : β → Parser (Option β)) (b : β) : Parser β := do
  iterate step (← get).rest b

def collect (step : Parser (Option α)) : List Token → Parser (List α)
  | [] => do return (← step).toList
  | _ :: tokens => do
    let some a ← step | return []
    return a :: (← collect step tokens)

/-- The values of a step that is repeated up to the first that gives none. A step that gives a
value reads a token, so the tokens that are left bound the steps. -/
def many (step : Parser (Option α)) : Parser (List α) := do
  collect step (← get).rest

def after (kind : TokenKind) (rest : Parser α) : Parser (Option α) := do
  if ← accept kind then return some (← rest)
  else return none

def commaSeparated (closing : Symbol) (item : Parser α) : Parser (List α) := do
  if (← peekKind) = some (.symbol closing) then return []
  let first ← item
  return first :: (← many (after (.symbol .comma) item))

end Parser

inductive Precedence where
  | lowest | or | and | not | comparison | shift | additive | multiplicative | unary | power
deriving DecidableEq

namespace Precedence

def rank : Precedence → Nat
  | lowest => 0
  | or => 1
  | and => 2
  | not => 3
  | comparison => 4
  | shift => 5
  | additive => 6
  | multiplicative => 7
  | unary => 8
  | power => 9

end Precedence

/-- The parsers that refer to each other in a circle: expressions whose operators bind tighter than
a precedence, statements, and what follows from an `elseif` on one line. The others take them as an
argument, and each of them calls these only after it has read a token. -/
structure Recursion where
  expression : Precedence → Parser (Expr Extent)
  statement : Parser (Statement Extent)
  inlineElseIf : Parser (Statement Extent)

end BrightCoverage
