import BrightCoverage.Project.Run

/-! The command line. Arguments are read from the left: options may be short or long, take their
value from the same argument or the next, and end at two dashes. Only patterns may be given more
than once. Asking for the version or for help ends the reading at once. -/

namespace BrightCoverage

structure Options where
  project : Option String := none
  patterns : List String := []
  stem : Option String := none
  templates : Option String := none
  config : Option String := none
  verbose : Bool := false
  dryRun : Bool := false
deriving DecidableEq

inductive ValueOption where
  | pattern | stem | templates | config
deriving DecidableEq

inductive Flag where
  | verbose | dryRun | version | help
deriving DecidableEq

inductive OptionName where
  | valued (o : ValueOption)
  | flag (f : Flag)
deriving DecidableEq

namespace OptionName

def ofLong? : String → Option OptionName
  | "pattern" => some (valued .pattern)
  | "prefix" => some (valued .stem)
  | "templates" => some (valued .templates)
  | "config" => some (valued .config)
  | "verbose" => some (flag .verbose)
  | "dry-run" => some (flag .dryRun)
  | "version" => some (flag .version)
  | "help" => some (flag .help)
  | _ => none

def ofShort? : Char → Option OptionName
  | 'p' => some (valued .pattern)
  | 'c' => some (valued .config)
  | 'v' => some (flag .verbose)
  | 'V' => some (flag .version)
  | 'h' => some (flag .help)
  | _ => none

end OptionName

inductive Request where
  | run (options : Options)
  | version
  | help
deriving DecidableEq

/-- How reading goes on after an argument: with more arguments, or not at all. -/
inductive Reply where
  | more (options : Options)
  | stop (request : Request)
deriving DecidableEq

namespace Options

def setPath? (old : Option String) (path : String) : Option (Option String) :=
  if old.isSome || path = "" then none else some (some path)

def setValue? (options : Options) : ValueOption → String → Option Options
  | .pattern, value => some { options with patterns := options.patterns ++ [value] }
  | .stem, value => if options.stem.isSome then none else some { options with stem := some value }
  | .templates, value => do
    return { options with templates := ← setPath? options.templates value }
  | .config, value => do return { options with config := ← setPath? options.config value }

def setProject? (options : Options) (path : String) : Option Options := do
  return { options with project := ← setPath? options.project path }

def setFlag? (options : Options) : Flag → Option Reply
  | .verbose => if options.verbose then none else some (.more { options with verbose := true })
  | .dryRun => if options.dryRun then none else some (.more { options with dryRun := true })
  | .version => some (.stop .version)
  | .help => some (.stop .help)

end Options

/-- The value that the next argument gives to an option, if it does not look like one itself. -/
def nextValue? : List String → Option (String × List String)
  | [] => none
  | arg :: rest => match arg.toList with
    | ['-'] => some (arg, rest)
    | '-' :: _ => none
    | _ => some (arg, rest)

def cutAtEquals : Text → Text × Option Text
  | [] => ([], none)
  | c :: rest =>
    if c = '=' then ([], some rest)
    else let (name, value) := cutAtEquals rest; (c :: name, value)

def readLong (options : Options) (body : Text) (rest : List String) :
    Option (Reply × List String) := do
  let (name, attached) := cutAtEquals body
  match ← OptionName.ofLong? (String.ofList name), attached with
  | .valued o, some value => return (.more (← options.setValue? o (String.ofList value)), rest)
  | .valued o, none =>
    let (value, rest) ← nextValue? rest
    return (.more (← options.setValue? o value), rest)
  | .flag f, none => return (← options.setFlag? f, rest)
  | .flag _, some _ => none

/-- Reads a group of short options without its dash. An option with a value takes what is left of
the group, after an equals sign if there is one, or the next argument. -/
def readShort (options : Options) : Text → List String → Option (Reply × List String)
  | [], rest => some (.more options, rest)
  | c :: group, rest => do
    match ← OptionName.ofShort? c with
    | .flag f => match ← options.setFlag? f with
      | .more options => readShort options group rest
      | .stop request => return (.stop request, rest)
    | .valued o => match group with
      | [] =>
        let (value, rest) ← nextValue? rest
        return (.more (← options.setValue? o value), rest)
      | '=' :: value => return (.more (← options.setValue? o (String.ofList value)), rest)
      | value => return (.more (← options.setValue? o (String.ofList value)), rest)

def readPlain (options : Options) : List String → Option Options
  | [] => some options
  | arg :: rest => do readPlain (← options.setProject? arg) rest

/-- Reads arguments in at most `rounds` rounds, each of which reads one. -/
def readArgs (options : Options) : Nat → List String → Option Request
  | _, [] => some (.run options)
  | 0, _ => none
  | rounds + 1, arg :: rest =>
    let next : Option (Reply × List String) := match arg.toList with
      | ['-', '-'] => do return (.stop (.run (← readPlain options rest)), [])
      | '-' :: '-' :: body => readLong options body rest
      | '-' :: c :: group => readShort options (c :: group) rest
      | _ => do return (.more (← options.setProject? arg), rest)
    match next with
    | some (.more options, rest) => readArgs options rounds rest
    | some (.stop request, _) => some request
    | none => none

def Request.ofArgs (args : List String) : Option Request :=
  readArgs {} args.length args

structure Outcome where
  exitCode : Nat
  stdout : String
  stderr : String
  tree : FileTree

def versionText : String :=
  "brscov 0.1.0\n"

def usageLine : String :=
  "Usage: brscov [OPTIONS] [PROJECT]"

def helpLines : List String :=
  [ "Line and branch coverage instrumentation for BrightScript projects",
    "",
    usageLine,
    "",
    "Arguments:",
    "  [PROJECT]  Project root (default: current directory, or the config file's)",
    "",
    "Options:",
    "  -p, --pattern <GLOB>   Source file glob, relative to the project root; `!` excludes (repeatable)",
    "      --prefix <NAME>    Prefix of the generated reporting functions",
    "      --templates <DIR>  Directory with runtime templates overriding the built-in ones",
    "  -c, --config <FILE>    JSON configuration file",
    "  -v, --verbose          Verbose output",
    "      --dry-run          Run the whole pipeline without writing any file",
    "  -h, --help             Print help",
    "  -V, --version          Print version" ]

def joinLines (lines : List String) : String :=
  String.ofList (unlines (lines.map String.toList))

namespace Options

def baseConfig (options : Options) (tree : FileTree) : Except RunError Config :=
  match options.config with
  | some path => Config.ofFile tree path
  | none => .ok Config.default

/-- The configuration of a run: the arguments win over the configuration file. -/
def toConfig (options : Options) (config : Config) : Config :=
  { projectPath := options.project.getD config.projectPath
    patterns := if options.patterns.isEmpty then config.patterns else options.patterns
    stem := options.stem.getD config.stem
    templateDir := options.templates <|> config.templateDir }

def report (options : Options) (summary : Summary) : String :=
  if options.dryRun then
    joinLines (summary.render :: summary.outputs.map fun path => "  would write " ++ path)
  else ""

end Options

def RunError.report (e : RunError) : String :=
  joinLines (("Error: " ++ e.message) :: e.details.map fun line => "  " ++ line)

def runOptions (options : Options) (tree : FileTree) : Outcome :=
  match options.baseConfig tree with
  | .error e => ⟨1, "", e.report, tree⟩
  | .ok base =>
    let config := options.toConfig base
    match Run.project discover config options.dryRun (Workspace.ofConfig .wraps config tree) with
    | .ok summary w => ⟨0, options.report summary, "", w.tree⟩
    | .error e w => ⟨1, "", e.report, w.tree⟩

def runArgs (args : List String) (tree : FileTree) : Outcome :=
  match Request.ofArgs args with
  | some (.run options) => runOptions options tree
  | some .version => ⟨0, versionText, "", tree⟩
  | some .help => ⟨0, joinLines helpLines, "", tree⟩
  | none => ⟨2, "", joinLines [usageLine, "", "For more information, try '--help'."], tree⟩

end BrightCoverage
