import BrightCoverage.Project.Config
import BrightCoverage.Project.Session

/-! Runs over a whole project. The source files are instrumented in place one after another, and
then the component is written. A failure stops the run and keeps what has been written; a dry run
does everything but write. -/

namespace BrightCoverage

structure Workspace where
  session : Session
  tree : FileTree

/-- A step of a run: it changes the workspace, and a failure keeps the changes made so far. -/
abbrev Run := EStateM RunError Workspace

/-- What names the source files of a project: it looks for patterns in a tree, below a root. -/
abbrev Finder := FileTree → String → List String → Except DiscoveryError (List String)

structure Summary where
  files : Nat
  codeLines : Nat
  conditionLines : Nat
  outputs : List String
  dryRun : Bool
deriving DecidableEq

namespace Summary

def render (s : Summary) : String :=
  toString s.files ++ " file(s), " ++ toString s.codeLines ++ " code line(s), "
    ++ toString s.conditionLines ++ " condition line(s)"
    ++ (if s.dryRun then " (dry run, nothing written)" else "")

end Summary

namespace Run

open RunError (lift)

/-- Writes a file, unless nothing is to be written. -/
def save (dryRun : Bool) (path : String) (text : Text) : Run Unit := do
  if dryRun then return
  let w ← get
  set { w with tree := ← lift .file (w.tree.save path text) }

/-- Works on a file with the session of the run, and gives the file as it is afterwards. -/
def onFile {α : Type} (file : SourceFile) (work : Work α) : Run SourceFile := fun w =>
  match work ⟨w.session, file⟩ with
  | .ok _ bench => .ok bench.file { w with session := bench.session }
  | .error e bench => .error e { w with session := bench.session }

def sourceFile (root : String) (dryRun : Bool) (relative : String) : Run Unit := do
  let path := Path.join root relative
  let text ← lift (fun fault => .file ⟨path, fault⟩) ((← get).tree.readText path)
  let file ← onFile (.ofText root relative text) Work.instrumentFile
  save dryRun file.path file.text

def sourceFiles (root : String) (dryRun : Bool) : List String → Run Unit
  | [] => return
  | relative :: rest => do
    sourceFile root dryRun relative
    sourceFiles root dryRun rest

def generatedFiles (root : String) (dryRun : Bool) : List GeneratedFile → Run Unit
  | [] => return
  | file :: rest => do
    save dryRun (Path.join root file.path) file.contents
    generatedFiles root dryRun rest

def summary (dryRun : Bool) (outputs : List String) : Run Summary := do
  let registry := (← get).session.registry
  return { files := registry.size
           codeLines := registry.countKind .code
           conditionLines := registry.countKind .condition
           outputs := outputs
           dryRun := dryRun }

/-- Instruments the files of a project that a finder names and writes the component. -/
def project (find : Finder) (config : Config) (dryRun : Bool) : Run Summary := do
  let root := config.projectPath
  let files ← lift (.ofDiscovery root) (find (← get).tree root config.patterns)
  sourceFiles root dryRun files
  let session := (← get).session
  let component ← lift .ofMissing (session.templates.renderComponent session.registry)
  generatedFiles root dryRun component
  summary dryRun (component.map GeneratedFile.path)

end Run

def FileTree.readTemplate (tree : FileTree) (dir name : String) : Option Text :=
  (tree.readText (Path.join dir name)).toOption

def Settings.ofConfig (overflow : Overflow) (config : Config) (tree : FileTree) : Settings :=
  { stem := config.stem
    templates := match config.templateDir with
      | some dir => TemplateSet.load (tree.readTemplate dir)
      | none => TemplateSet.builtIn
    overflow := overflow }

def Workspace.ofConfig (overflow : Overflow) (config : Config) (tree : FileTree) : Workspace :=
  ⟨Session.start (.ofConfig overflow config tree), tree⟩

end BrightCoverage
