import BrightCoverage.Text.Position

/-! Tokens of BrightScript. Keywords and symbols are closed sets with one spelling each; the other
kinds are classes of texts. Keywords may be written in any case. -/

namespace BrightCoverage

inductive Keyword where
  | ifKw | thenKw | elseKw | elseIfKw | endKw | endIfKw | endForKw | endWhileKw | endSubKw
  | endFunctionKw | forKw | toKw | stepKw | eachKw | inKw | nextKw | whileKw | exitKw
  | exitWhileKw | returnKw | gotoKw | stopKw | functionKw | subKw | asKw | dimKw | libraryKw
  | printKw | trueKw | falseKw | invalidKw | andKw | orKw | notKw | modKw
deriving DecidableEq

namespace Keyword

def all : List Keyword :=
  [ifKw, thenKw, elseKw, elseIfKw, endKw, endIfKw, endForKw, endWhileKw, endSubKw, endFunctionKw,
   forKw, toKw, stepKw, eachKw, inKw, nextKw, whileKw, exitKw, exitWhileKw, returnKw, gotoKw,
   stopKw, functionKw, subKw, asKw, dimKw, libraryKw, printKw, trueKw, falseKw, invalidKw, andKw,
   orKw, notKw, modKw]

def spelling : Keyword → String
  | ifKw => "if"
  | thenKw => "then"
  | elseKw => "else"
  | elseIfKw => "elseif"
  | endKw => "end"
  | endIfKw => "endif"
  | endForKw => "endfor"
  | endWhileKw => "endwhile"
  | endSubKw => "endsub"
  | endFunctionKw => "endfunction"
  | forKw => "for"
  | toKw => "to"
  | stepKw => "step"
  | eachKw => "each"
  | inKw => "in"
  | nextKw => "next"
  | whileKw => "while"
  | exitKw => "exit"
  | exitWhileKw => "exitwhile"
  | returnKw => "return"
  | gotoKw => "goto"
  | stopKw => "stop"
  | functionKw => "function"
  | subKw => "sub"
  | asKw => "as"
  | dimKw => "dim"
  | libraryKw => "library"
  | printKw => "print"
  | trueKw => "true"
  | falseKw => "false"
  | invalidKw => "invalid"
  | andKw => "and"
  | orKw => "or"
  | notKw => "not"
  | modKw => "mod"

def name : Keyword → String
  | ifKw => "If"
  | thenKw => "Then"
  | elseKw => "Else"
  | elseIfKw => "ElseIf"
  | endKw => "End"
  | endIfKw => "EndIf"
  | endForKw => "EndFor"
  | endWhileKw => "EndWhile"
  | endSubKw => "EndSub"
  | endFunctionKw => "EndFunction"
  | forKw => "For"
  | toKw => "To"
  | stepKw => "Step"
  | eachKw => "Each"
  | inKw => "In"
  | nextKw => "Next"
  | whileKw => "While"
  | exitKw => "Exit"
  | exitWhileKw => "ExitWhile"
  | returnKw => "Return"
  | gotoKw => "Goto"
  | stopKw => "Stop"
  | functionKw => "Function"
  | subKw => "Sub"
  | asKw => "As"
  | dimKw => "Dim"
  | libraryKw => "Library"
  | printKw => "Print"
  | trueKw => "True"
  | falseKw => "False"
  | invalidKw => "Invalid"
  | andKw => "And"
  | orKw => "Or"
  | notKw => "Not"
  | modKw => "Mod"

end Keyword

inductive Symbol where
  | question | plus | minus | star | slash | backslash | caret | shiftLeft | shiftRight | equals
  | notEquals | lessThan | greaterThan | lessEquals | greaterEquals | plusEquals | minusEquals
  | starEquals | slashEquals | backslashEquals | shiftLeftEquals | shiftRightEquals | plusPlus
  | minusMinus | leftParen | rightParen | leftBracket | rightBracket | leftBrace | rightBrace
  | comma | semicolon | colon | dot | atSign
deriving DecidableEq

namespace Symbol

def all : List Symbol :=
  [question, plus, minus, star, slash, backslash, caret, shiftLeft, shiftRight, equals, notEquals,
   lessThan, greaterThan, lessEquals, greaterEquals, plusEquals, minusEquals, starEquals,
   slashEquals, backslashEquals, shiftLeftEquals, shiftRightEquals, plusPlus, minusMinus,
   leftParen, rightParen, leftBracket, rightBracket, leftBrace, rightBrace, comma, semicolon,
   colon, dot, atSign]

def spelling : Symbol → String
  | question => "?"
  | plus => "+"
  | minus => "-"
  | star => "*"
  | slash => "/"
  | backslash => "\\"
  | caret => "^"
  | shiftLeft => "<<"
  | shiftRight => ">>"
  | equals => "="
  | notEquals => "<>"
  | lessThan => "<"
  | greaterThan => ">"
  | lessEquals => "<="
  | greaterEquals => ">="
  | plusEquals => "+="
  | minusEquals => "-="
  | starEquals => "*="
  | slashEquals => "/="
  | backslashEquals => "\\="
  | shiftLeftEquals => "<<="
  | shiftRightEquals => ">>="
  | plusPlus => "++"
  | minusMinus => "--"
  | leftParen => "("
  | rightParen => ")"
  | leftBracket => "["
  | rightBracket => "]"
  | leftBrace => "\x7b"
  | rightBrace => "\x7d"
  | comma => ","
  | semicolon => ";"
  | colon => ":"
  | dot => "."
  | atSign => "@"

def name : Symbol → String
  | question => "Question"
  | plus => "Plus"
  | minus => "Minus"
  | star => "Star"
  | slash => "Slash"
  | backslash => "Backslash"
  | caret => "Caret"
  | shiftLeft => "ShiftLeft"
  | shiftRight => "ShiftRight"
  | equals => "Equals"
  | notEquals => "NotEquals"
  | lessThan => "LessThan"
  | greaterThan => "GreaterThan"
  | lessEquals => "LessEquals"
  | greaterEquals => "GreaterEquals"
  | plusEquals => "PlusEquals"
  | minusEquals => "MinusEquals"
  | starEquals => "StarEquals"
  | slashEquals => "SlashEquals"
  | backslashEquals => "BackslashEquals"
  | shiftLeftEquals => "ShiftLeftEquals"
  | shiftRightEquals => "ShiftRightEquals"
  | plusPlus => "PlusPlus"
  | minusMinus => "MinusMinus"
  | leftParen => "LeftParen"
  | rightParen => "RightParen"
  | leftBracket => "LeftBracket"
  | rightBracket => "RightBracket"
  | leftBrace => "LeftBrace"
  | rightBrace => "RightBrace"
  | comma => "Comma"
  | semicolon => "Semicolon"
  | colon => "Colon"
  | dot => "Dot"
  | atSign => "At"

end Symbol

/-- What a token is. A directive is a whole line that starts with a hash mark and a word; an
unknown token is text that starts no other token. -/
inductive TokenKind where
  | keyword (k : Keyword)
  | symbol (s : Symbol)
  | integer
  | hexInteger
  | float
  | string
  | openString
  | identifier
  | newline
  | directive
  | unknown
deriving DecidableEq

namespace TokenKind

def name : TokenKind → String
  | keyword k => k.name
  | symbol s => s.name
  | integer => "IntegerLiteral"
  | hexInteger => "HexLiteral"
  | float => "FloatLiteral"
  | string => "StringLiteral"
  | openString => "UnterminatedString"
  | identifier => "Identifier"
  | newline => "Newline"
  | directive => "Directive"
  | unknown => "Unknown"

def plainKeywords : List Keyword :=
  [.ifKw, .thenKw, .elseKw, .elseIfKw, .endKw, .forKw, .whileKw, .functionKw, .subKw, .printKw]

def plainSymbols : List Symbol :=
  [.plus, .minus, .equals, .leftParen, .rightParen, .colon]

def display : TokenKind → String
  | keyword k => if k ∈ plainKeywords then k.spelling else k.name
  | symbol s => if s ∈ plainSymbols then s.spelling else s.name
  | newline => "newline"
  | kind => kind.name

end TokenKind

structure Token where
  kind : TokenKind
  text : String
  extent : Extent
deriving DecidableEq

namespace Token

def span (t : Token) : Span :=
  t.extent.span

def isWordStart (c : Char) : Bool :=
  c.isAlpha || c == '_'

def isWordPart (c : Char) : Bool :=
  c.isAlphanum || c == '_' || c == '$' || c == '%' || c == '!' || c == '#' || c == '&'

/-- Whether the token can name a member, a key, a parameter or a type. Keywords can. -/
def isWord (t : Token) : Bool :=
  match t.text.toList with
  | [] => false
  | c :: rest => isWordStart c && isWordPart c && rest.all isWordPart

def describe (t : Token) : String :=
  if t.kind = .newline then "newline" else "`" ++ t.text ++ "`"

end Token

end BrightCoverage
