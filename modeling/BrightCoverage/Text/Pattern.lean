/-! Regular patterns over characters. A pattern is read by taking derivatives: the derivative by a
character matches what may follow that character in a match. The longest match of a pattern at the
start of a text is then found in one pass, which stops as soon as nothing can match any more. -/

namespace BrightCoverage

structure CharClass where
  ranges : List (Char × Char)
  negated : Bool := false
deriving DecidableEq

namespace CharClass

def contains (k : CharClass) (c : Char) : Bool :=
  (k.ranges.any fun (low, high) => low ≤ c && c ≤ high) != k.negated

def of (chars : List Char) : CharClass :=
  ⟨chars.map fun c => (c, c), false⟩

def except (chars : List Char) : CharClass :=
  ⟨chars.map fun c => (c, c), true⟩

def caseless (c : Char) : CharClass :=
  of [c.toLower, c.toUpper]

end CharClass

/-- Regular patterns. `fail` matches nothing and `empty` only the empty text. -/
inductive Pattern where
  | fail
  | empty
  | one (k : CharClass)
  | seq (p q : Pattern)
  | alt (p q : Pattern)
  | star (p : Pattern)
deriving DecidableEq

namespace Pattern

def andThen : Pattern → Pattern → Pattern
  | fail, _ => fail
  | empty, q => q
  | p, q => seq p q

def orElse : Pattern → Pattern → Pattern
  | fail, q => q
  | p, fail => p
  | p, q => alt p q

def optional (p : Pattern) : Pattern :=
  alt p empty

def plus (p : Pattern) : Pattern :=
  seq p (star p)

def all (ps : List Pattern) : Pattern :=
  ps.foldr seq empty

def any (ps : List Pattern) : Pattern :=
  ps.foldr alt fail

def literal (text : String) : Pattern :=
  all (text.toList.map fun c => one (CharClass.of [c]))

def caseless (text : String) : Pattern :=
  all (text.toList.map fun c => one (CharClass.caseless c))

def nullable : Pattern → Bool
  | fail => false
  | empty => true
  | one _ => false
  | seq p q => p.nullable && q.nullable
  | alt p q => p.nullable || q.nullable
  | star _ => true

/-- What may follow the character in a match. -/
def deriv (c : Char) : Pattern → Pattern
  | fail => fail
  | empty => fail
  | one k => if k.contains c then empty else fail
  | seq p q =>
    if p.nullable then orElse (andThen (p.deriv c) q) (q.deriv c) else andThen (p.deriv c) q
  | alt p q => orElse (p.deriv c) (q.deriv c)
  | star p => andThen (p.deriv c) (star p)

def accepts (p : Pattern) : List Char → Bool
  | [] => p.nullable
  | c :: rest => (p.deriv c).accepts rest

/-- The length of the longest matching text at the start of the given one. -/
def longest (p : Pattern) : List Char → Option Nat
  | [] => if p.nullable then some 0 else none
  | c :: rest =>
    let here := if p.nullable then some 0 else none
    match p.deriv c with
    | fail => here
    | q => match q.longest rest with
      | some n => some (n + 1)
      | none => here

end Pattern

end BrightCoverage
