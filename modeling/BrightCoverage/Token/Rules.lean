import BrightCoverage.Text.Pattern
import BrightCoverage.Token

/-! The lexical rules. Every rule is a regular pattern with the kind of token that it makes, or
none for what is skipped. Where two rules match equally much the earlier one counts, so the REM
comment and the keywords stand before the identifiers. -/

namespace BrightCoverage

/-- A pattern and what a match of it becomes; blanks and comments become nothing. -/
structure Rule where
  kind : Option TokenKind
  pattern : Pattern

namespace Rule

open Pattern

def blank : CharClass :=
  CharClass.of [' ', '\t']

def digit : CharClass :=
  ⟨[('0', '9')], false⟩

def hexDigit : CharClass :=
  ⟨[('0', '9'), ('A', 'F'), ('a', 'f')], false⟩

def letter : CharClass :=
  ⟨[('A', 'Z'), ('a', 'z')], false⟩

def wordStart : CharClass :=
  ⟨[('A', 'Z'), ('a', 'z'), ('_', '_')], false⟩

def wordPart : CharClass :=
  ⟨[('A', 'Z'), ('a', 'z'), ('0', '9'), ('_', '_')], false⟩

def restOfLine : Pattern :=
  star (one (CharClass.except ['\n']))

def digits : Pattern :=
  plus (one digit)

def exponent : Pattern :=
  all [one (CharClass.of ['E', 'e']), optional (one (CharClass.of ['+', '-'])), digits]

def floatSuffix : Pattern :=
  one (CharClass.of ['!', '#'])

def openQuote : Pattern :=
  seq (literal "\"") (star (alt (one (CharClass.except ['"', '\n'])) (literal "\"\"")))

def skipped : List Rule :=
  [ ⟨none, plus (one (CharClass.of [' ', '\t', '\r']))⟩,
    ⟨none, seq (literal "'") restOfLine⟩,
    ⟨none, seq (caseless "rem") (optional (seq (one blank) restOfLine))⟩ ]

def keywords : List Rule :=
  Keyword.all.map fun k => ⟨some (.keyword k), caseless k.spelling⟩

def symbols : List Rule :=
  Symbol.all.map fun s => ⟨some (.symbol s), literal s.spelling⟩

def integer : Pattern :=
  seq digits (optional (literal "&"))

def hexInteger : Pattern :=
  all [literal "&", one (CharClass.of ['H', 'h']), plus (one hexDigit), optional (literal "&")]

/-- A float has a fraction, an exponent or a suffix. -/
def float : Pattern :=
  any [ all [star (one digit), literal ".", digits, optional exponent, optional floatSuffix],
        all [digits, exponent, optional floatSuffix],
        seq digits floatSuffix ]

def identifier : Pattern :=
  all [one wordStart, star (one wordPart), optional (one (CharClass.of ['$', '%', '!', '#', '&']))]

def directive : Pattern :=
  all [literal "#", star (one blank), one letter, restOfLine]

def classes : List Rule :=
  [ ⟨some .integer, integer⟩,
    ⟨some .hexInteger, hexInteger⟩,
    ⟨some .float, float⟩,
    ⟨some .string, seq openQuote (literal "\"")⟩,
    ⟨some .openString, openQuote⟩,
    ⟨some .identifier, identifier⟩,
    ⟨some .newline, literal "\n"⟩,
    ⟨some .directive, directive⟩ ]

def all : List Rule :=
  skipped ++ keywords ++ symbols ++ classes

end Rule

end BrightCoverage
