import BrightCoverage.Text.Blank
import BrightCoverage.Grammar.Block

/-! Conditional compilation. A directive is one line: a hash mark, a word and arguments. `#else if`
and `#end if` may be written with or without the space. Every branch of an `#if` is read as
statements; its conditions are kept as written. -/

namespace BrightCoverage

inductive DirectiveKind where
  | ifDir | elseIfDir | elseDir | endIfDir | constDir | errorDir
deriving DecidableEq

/-- The parts of a directive line: its kind if it is known, its word as written and the trimmed
arguments. -/
structure Directive where
  kind : Option DirectiveKind
  name : List Char
  args : List Char
deriving DecidableEq

namespace Directive

def lower (text : List Char) : List Char :=
  text.map Char.toLower

/-- What follows the word `if`, if that word comes first. -/
def afterIf (text : List Char) : Option (List Char) :=
  match trimLeft text with
  | i :: f :: rest =>
    let endsWord := match rest with
      | [] => true
      | c :: _ => !c.isAlphanum && c ≠ '_'
    if lower [i, f] = ['i', 'f'] && endsWord then some rest else none
  | _ => none

def kindOfWord (word : String) : Option DirectiveKind :=
  match word with
  | "if" => some .ifDir
  | "elseif" => some .elseIfDir
  | "else" => some .elseDir
  | "endif" => some .endIfDir
  | "const" => some .constDir
  | "error" => some .errorDir
  | _ => none

def ofLine (line : List Char) : Directive :=
  let body := trimLeft (line.dropWhile (· = '#'))
  let name := body.takeWhile Char.isAlpha
  let rest := body.dropWhile Char.isAlpha
  let word := String.ofList (lower name)
  match word, afterIf rest with
  | "else", some args => ⟨some .elseIfDir, name, trim args⟩
  | "end", some args => ⟨some .endIfDir, name, trim args⟩
  | _, _ => ⟨kindOfWord word, name, trim rest⟩

def ofToken? (token : Token) : Option Directive :=
  if token.kind = .directive then some (ofLine token.text.toList) else none

def next? (c : Cursor) : Option DirectiveKind :=
  (c.head?.bind ofToken?).bind kind

def atBranchEnd (c : Cursor) : Bool :=
  match next? c with
  | some .elseIfDir | some .elseDir | some .endIfDir => true
  | _ => false

end Directive

namespace Parser

def compileElseIf (self : Recursion) : Parser (Option (CompileElseIf Extent)) := do
  match (← peek).bind Directive.ofToken? with
  | some ⟨some .elseIfDir, _, args⟩ =>
    advance
    let body ← block self Directive.atBranchEnd
    return some (.mk (String.ofList args) body)
  | _ => return none

def compileElse (self : Recursion) : Parser (Option (List (Statement Extent))) := do
  if Directive.next? (← get) = some .elseDir then
    advance
    return some (← block self Directive.atBranchEnd)
  else return none

/-- Reads the branches and the end of an `#if` whose first line has been read. -/
def compileIf (self : Recursion) (first : Token) (condition : String) :
    Parser (Statement Extent) := do
  let thenBody ← block self Directive.atBranchEnd
  let elseIfs ← many (compileElseIf self)
  let elseBody ← compileElse self
  match Directive.next? (← get) with
  | some .endIfDir =>
    advance
    return .compileIf (← extentFrom first.extent) condition thenBody elseIfs elseBody
  | some _ => expected "#end if"
  | none => throw (.missingEnd .compileIf first.span)

def directive (self : Recursion) (first : Token) : Parser (Statement Extent) := do
  advance
  let line := Directive.ofLine first.text.toList
  let name := String.ofList (Directive.lower line.name)
  match line.kind with
  | some .ifDir => compileIf self first (String.ofList line.args)
  | some .constDir | some .errorDir =>
    return .directive (← extentFrom first.extent) name (String.ofList line.args)
  | some .elseIfDir | some .elseDir | some .endIfDir => throw (.strayDirective first.span name)
  | none => throw (.unknownDirective first.span (String.ofList line.name))

end Parser

end BrightCoverage
