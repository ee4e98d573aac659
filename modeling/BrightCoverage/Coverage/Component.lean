import BrightCoverage.Coverage.Registry
import BrightCoverage.Coverage.Template

/-! What collects coverage on the device. Every instrumented file ends with a footer that defines
its reporting function; the function hands each hit to a component, which is a descriptor and an
implementation that carries the maps of the whole run. All three are rendered from templates, and
one that is missing is noticed when it is needed. -/

namespace BrightCoverage

def componentDir : String :=
  "components"

def descriptorName : String :=
  "CodeCoverage.xml"

def implementationName : String :=
  "CodeCoverage.brs"

def footerName : String :=
  "CodeCoverageTemplate.brs"

def footerLines : List String :=
  [ "function #PREFIX#_#ID#_reportLine(lineNumber, reportType = 1)",
    "  if m.global = invalid then return true",
    "",
    "  if m._rbs_ccn = invalid",
    "    if m.global._rbs_ccn = invalid",
    "      m.global.addFields(\x7b \"_rbs_ccn\": createObject(\"roSGNode\", \"CodeCoverage\") \x7d)",
    "    end if",
    "    m._rbs_ccn = m.global._rbs_ccn",
    "  end if",
    "",
    "  m._rbs_ccn.entry = \x7b \"f\": \"#ID#\", \"l\": stri(lineNumber).trim(), \"r\": reportType \x7d",
    "  return true",
    "end function" ]

def descriptorLines : List String :=
  [ "<?xml version=\"1.0\" encoding=\"UTF-8\"?>",
    "<component name=\"CodeCoverage\" extends=\"ContentNode\">",
    "  <script type=\"text/brightscript\" uri=\"CodeCoverage.brs\" />",
    "  <interface>",
    "    <field id=\"entry\" type=\"assocarray\" alwaysNotify=\"true\" />",
    "    <field id=\"save\" type=\"boolean\" alwaysNotify=\"true\" />",
    "    <field id=\"expectedMap\" type=\"assocarray\" />",
    "    <field id=\"filePathMap\" type=\"assocarray\" />",
    "    <field id=\"resolvedMap\" type=\"assocarray\" />",
    "  </interface>",
    "</component>" ]

def implementationLines : List String :=
  [ "function init()",
    "  m.resolvedMap = \x7b\x7d",
    "  setExpectedMap()",
    "  setFilePathMap()",
    "  m.top.observeField(\"entry\", \"onEntry\")",
    "  m.top.observeField(\"save\", \"onSave\")",
    "end function",
    "",
    "function setExpectedMap()",
    "  m.top.expectedMap = #EXPECTED_MAP#",
    "end function",
    "",
    "function setFilePathMap()",
    "  m.top.filePathMap = #FILE_PATH_MAP#",
    "end function",
    "",
    "function onEntry()",
    "  entry = m.top.entry",
    "  if entry = invalid then return invalid",
    "",
    "  fileMap = m.resolvedMap[entry.f]",
    "  if fileMap = invalid",
    "    fileMap = \x7b\x7d",
    "    m.resolvedMap[entry.f] = fileMap",
    "  end if",
    "",
    "  hits = fileMap[entry.l]",
    "  if hits = invalid then hits = 0",
    "  fileMap[entry.l] = hits + 1",
    "end function",
    "",
    "function onSave()",
    "  m.top.resolvedMap = m.resolvedMap",
    "end function" ]

/-- The templates of a run; those that could not be read are missing. -/
structure TemplateSet where
  footer : Option Template
  descriptor : Option Template
  implementation : Option Template

structure MissingTemplate where
  name : String
deriving DecidableEq

/-- A file to be written, at a path inside the project. -/
structure GeneratedFile where
  path : String
  contents : Text
deriving DecidableEq

namespace TemplateSet

def target : String :=
  "SceneGraph"

def builtIn : TemplateSet :=
  { footer := some ⟨footerName, unlines (footerLines.map String.toList)⟩
    descriptor := some ⟨descriptorName, unlines (descriptorLines.map String.toList)⟩
    implementation :=
      some ⟨implementationName, unlines (implementationLines.map String.toList)⟩ }

def load (read : String → Option Text) : TemplateSet :=
  let template name := (read name).map (Template.mk name)
  { footer := template footerName
    descriptor := template descriptorName
    implementation := template implementationName }

def need (template : Option Template) (name : String) : Except MissingTemplate Template :=
  match template with
  | some template => .ok template
  | none => .error ⟨name⟩

def renderFooter (templates : TemplateSet) (r : Reporter) : Except MissingTemplate Text := do
  let template ← need templates.footer footerName
  return template.render
    [("ID".toList, Nat.toDigits 10 r.id), ("PREFIX".toList, r.stem.toList)]

/-- The files of the component: the descriptor as it is, and the implementation with the maps. -/
def renderComponent (templates : TemplateSet) (registry : Registry) :
    Except MissingTemplate (List GeneratedFile) := do
  let descriptor ← need templates.descriptor descriptorName
  let implementation ← need templates.implementation implementationName
  return [
    ⟨componentDir ++ "/" ++ descriptorName, descriptor.text⟩,
    ⟨componentDir ++ "/" ++ implementationName,
      implementation.render
        [("EXPECTED_MAP".toList, registry.expectedJson),
         ("FILE_PATH_MAP".toList, registry.pathsJson)]⟩ ]

end TemplateSet

end BrightCoverage
