import BrightCoverage.Project.Error
import BrightCoverage.Text.Decimal

/-! The configuration of a run. A configuration file is strict JSON: an object with the four known
keys, each at most once, or an array of the four values in order, of which the last ones may be
left out. Relative paths in a file are seen from the directory of the file. -/

namespace BrightCoverage

structure Config where
  projectPath : String
  patterns : List String
  stem : String
  templateDir : Option String
deriving DecidableEq

namespace Config

/-- All sources and components but the generated one. -/
def defaultPatterns : List String :=
  ["source/**/*.brs", "components/**/*.brs", "!" ++ componentDir ++ "/" ++ implementationName]

def default : Config :=
  { projectPath := "."
    patterns := defaultPatterns
    stem := Reporter.defaultStem
    templateDir := none }

inductive Value where
  | null
  | string (s : String)
  | strings (l : List String)
deriving DecidableEq

/-- The fields of a configuration, in the order of the array form. -/
inductive Field where
  | projectPath | patterns | stem | templateDir
deriving DecidableEq

namespace Field

def all : List Field :=
  [projectPath, patterns, stem, templateDir]

def key : Field → String
  | projectPath => "projectPath"
  | patterns => "sourceFilePatterns"
  | stem => "reportPrefix"
  | templateDir => "templateDir"

def ofKey? (key : String) : Option Field :=
  all.find? (·.key = key)

end Field

def set? (config : Config) : Field → Value → Option Config
  | .projectPath, .string s => some { config with projectPath := s }
  | .patterns, .strings l => some { config with patterns := l }
  | .stem, .string s => some { config with stem := s }
  | .templateDir, .string s => some { config with templateDir := some s }
  | .templateDir, .null => some { config with templateDir := none }
  | _, _ => none

/-! ### Reading -/

def isSpace (c : Char) : Bool :=
  c == ' ' || c == '\t' || c == '\n' || c == '\r'

def skipSpace (text : Text) : Text :=
  text.dropWhile isSpace

def expectChar (c : Char) (text : Text) : Option Text :=
  match skipSpace text with
  | x :: rest => if x = c then some rest else none
  | [] => none

def isHexDigit (c : Char) : Bool :=
  c.isDigit || ('a' ≤ c && c ≤ 'f') || ('A' ≤ c && c ≤ 'F')

def hexQuad (digits : List Char) : Option Nat :=
  if digits.all isHexDigit then some (ofDigits 16 digits) else none

def isHighSurrogate (n : Nat) : Bool :=
  0xD800 ≤ n && n < 0xDC00

def isLowSurrogate (n : Nat) : Bool :=
  0xDC00 ≤ n && n < 0xE000

/-- The character that a surrogate pair denotes. -/
def ofSurrogates (high low : Nat) : Option Char :=
  if isHighSurrogate high && isLowSurrogate low then
    some (Char.ofNat (0x10000 + (high - 0xD800) * 0x400 + (low - 0xDC00)))
  else none

def simpleEscape : Char → Option Char
  | '"' => some '"'
  | '\\' => some '\\'
  | '/' => some '/'
  | 'b' => some '\x08'
  | 'f' => some '\x0c'
  | 'n' => some '\n'
  | 'r' => some '\r'
  | 't' => some '\t'
  | _ => none

def prepend (c : Char) (read : Option (Text × Text)) : Option (Text × Text) :=
  read.map fun (text, rest) => (c :: text, rest)

def readString : Text → Option (Text × Text)
  | [] => none
  | '"' :: rest => some ([], rest)
  | '\\' :: 'u' :: a :: b :: c :: d :: rest => do
    let n ← hexQuad [a, b, c, d]
    if isHighSurrogate n then match rest with
      | '\\' :: 'u' :: e :: f :: g :: h :: rest =>
        prepend (← ofSurrogates n (← hexQuad [e, f, g, h])) (readString rest)
      | _ => none
    else if isLowSurrogate n then none
    else prepend (Char.ofNat n) (readString rest)
  | '\\' :: c :: rest => do prepend (← simpleEscape c) (readString rest)
  | c :: rest => if c.toNat < 0x20 || c == '\\' then none else prepend c (readString rest)

def readQuoted (text : Text) : Option (String × Text) := do
  let rest ← expectChar '"' text
  let (s, rest) ← readString rest
  return (String.ofList s, rest)

/-- Reads items with commas between them up to a closing character, of which the first comes at
once. Every round reads a character. -/
def readItems {α : Type} (closing : Char) (item : Text → Option (α × Text)) :
    Nat → Text → Option (List α × Text)
  | 0, _ => none
  | rounds + 1, text => do
    let (a, rest) ← item text
    match skipSpace rest with
    | ',' :: rest =>
      let (others, rest) ← readItems closing item rounds rest
      return (a :: others, rest)
    | c :: rest => if c = closing then return ([a], rest) else none
    | [] => none

def readList {α : Type} (closing : Char) (item : Text → Option (α × Text)) (text : Text) :
    Option (List α × Text) :=
  match expectChar closing text with
  | some rest => some ([], rest)
  | none => readItems closing item (text.length + 1) text

def readValue (text : Text) : Option (Value × Text) :=
  match skipSpace text with
  | 'n' :: 'u' :: 'l' :: 'l' :: rest => some (.null, rest)
  | '"' :: rest => (readString rest).map fun (s, rest) => (.string (String.ofList s), rest)
  | '[' :: rest => (readList ']' readQuoted rest).map fun (l, rest) => (.strings l, rest)
  | _ => none

def readMember (text : Text) : Option ((Field × Value) × Text) := do
  let (key, rest) ← readQuoted text
  let field ← Field.ofKey? key
  let rest ← expectChar ':' rest
  let (value, rest) ← readValue rest
  return ((field, value), rest)

def setAll : Config → List (Field × Value) → Option Config
  | config, [] => some config
  | config, (field, value) :: rest => do setAll (← config.set? field value) rest

/-- The configuration that an object denotes; no field comes twice. -/
def ofMembers (members : List (Field × Value)) : Option Config :=
  if (members.map Prod.fst).Nodup then setAll default members else none

/-- The configuration that an array denotes; it has at most one value for each field. -/
def ofValues (values : List Value) : Option Config :=
  if values.length ≤ Field.all.length then setAll default (Field.all.zip values) else none

def readConfig (text : Text) : Option (Config × Text) := do
  match skipSpace text with
  | '\x7b' :: rest =>
    let (members, rest) ← readList '\x7d' readMember rest
    return (← ofMembers members, rest)
  | '[' :: rest =>
    let (values, rest) ← readList ']' readValue rest
    return (← ofValues values, rest)
  | _ => none

def ofText (text : Text) : Option Config := do
  let (config, rest) ← readConfig text
  if skipSpace rest = [] then some config else none

/-- The paths of a configuration, seen from a directory. -/
def seenFrom (config : Config) (base : String) : Config :=
  { config with
    projectPath := Path.join base config.projectPath
    templateDir := config.templateDir.map (Path.join base) }

def ofFile (tree : FileTree) (path : String) : Except RunError Config := do
  let text ← (tree.readText path).mapError fun fault => .badConfig path (.unreadable fault)
  let some config := ofText text | throw (.badConfig path .malformed)
  match Path.parent? path with
  | some base => return config.seenFrom base
  | none => return config

end Config

end BrightCoverage
