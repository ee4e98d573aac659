import BrightCoverage.Coverage.Component
import BrightCoverage.Files.Discovery
import BrightCoverage.Grammar.Program

/-! What stops a run. Parse errors are shown with the position at which they start. -/

namespace BrightCoverage

/-- A parse error and the position at which it starts, if it has one. -/
structure Diagnostic where
  position : Option Position
  error : ParseError

namespace Diagnostic

def ofError (index : LineIndex) (error : ParseError) : Diagnostic :=
  ⟨error.span.map fun span => index.position span.start, error⟩

def ofErrors (source : Text) (errors : List ParseError) : List Diagnostic :=
  errors.map (ofError (LineIndex.ofText source))

def render (d : Diagnostic) : String :=
  match d.position with
  | some position => position.render ++ ": " ++ d.error.message
  | none => d.error.message

end Diagnostic

inductive ConfigFault where
  | unreadable (fault : FileFault)
  | malformed
deriving DecidableEq

namespace ConfigFault

def message : ConfigFault → String
  | unreadable fault => fault.message
  | malformed => "not a valid configuration"

end ConfigFault

/-- Why a run stops. -/
inductive RunError where
  | file (failure : FileTree.Failure)
  | syntaxErrors (path : String) (diagnostics : List Diagnostic)
  | badPattern (pattern : String) (fault : GlobFault) (pos : Option Nat)
  | missingTemplate (name : String)
  | badConfig (path : String) (fault : ConfigFault)
  | noNumberLeft

namespace RunError

def ofDiscovery (root : String) : DiscoveryError → RunError
  | .badPattern pattern fault pos => badPattern pattern fault pos
  | .emptyRoot => file ⟨root, .emptyPath⟩

def ofMissing (m : MissingTemplate) : RunError :=
  missingTemplate m.name

def message : RunError → String
  | file failure => failure.path ++ ": " ++ failure.fault.message
  | syntaxErrors path diagnostics =>
    path ++ ": " ++ toString diagnostics.length ++ " parse error(s)"
  | badPattern pattern fault pos =>
    "invalid file pattern `" ++ pattern ++ "`: Pattern syntax error near position "
      ++ toString (pos.getD 0) ++ ": " ++ fault.message
  | missingTemplate name => "template `" ++ name ++ "` is not available"
  | badConfig path fault => "invalid configuration " ++ path ++ ": " ++ fault.message
  | noNumberLeft => "attempt to add with overflow"

def details : RunError → List String
  | syntaxErrors _ diagnostics => diagnostics.map Diagnostic.render
  | _ => []

/-- Takes the value of a computation or stops with its error. -/
def lift {σ ε α : Type} (wrap : ε → RunError) : Except ε α → EStateM RunError σ α
  | .ok a => return a
  | .error e => throw (wrap e)

end RunError

end BrightCoverage
