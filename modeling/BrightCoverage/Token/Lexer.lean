import BrightCoverage.Token.Rules

/-! Cutting a text into tokens. At each place the longest match of any rule is taken; where no rule
matches, one character becomes an unknown token, and a hash mark takes the blanks after it along.
Nothing is lost: what is not a token is a match of a skipping rule. -/

namespace BrightCoverage

/-- The rule with the longest non-empty match at the start of the text, the first of them on a
tie, and the length of that match. -/
def longestMatch (text : Text) : List Rule → Option (Rule × Nat)
  | [] => none
  | rule :: rules =>
    match rule.pattern.longest text, longestMatch text rules with
    | some (n + 1), some (other, m) => if m ≤ n + 1 then some (rule, n + 1) else some (other, m)
    | some (n + 1), none => some (rule, n + 1)
    | _, best => best

def unknownLength : Text → Nat
  | '#' :: rest => 1 + (rest.takeWhile Rule.blank.contains).length
  | _ => 1

/-- What stands at the start of a text: the kind of token, or none for what is skipped, and its
length. -/
def nextItem (text : Text) : Option TokenKind × Nat :=
  match longestMatch text Rule.all with
  | some (rule, n) => (rule.kind, n)
  | none => (some .unknown, unknownLength text)

/-- The tokens of a text that starts at the mark. Every item takes a character, so a step for each
character is enough. -/
def scan : Nat → Mark → Text → List Token
  | 0, _, _ => []
  | _, _, [] => []
  | steps + 1, mark, c :: rest =>
    let (kind, n) := nextItem (c :: rest)
    let item := (c :: rest).take n
    let after := mark.advance item
    let tokens := scan steps after ((c :: rest).drop n)
    match kind with
    | some kind => ⟨kind, String.ofList item, mark.extentTo after⟩ :: tokens
    | none => tokens

def lex (source : Text) : List Token :=
  scan source.length Mark.origin source

end BrightCoverage
