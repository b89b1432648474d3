import GioForge.Command.Args
import GioForge.Command.Report
import GioForge.Document.Open
import GioForge.Relation.Decode
import GioForge.Ui.Decode

/-!
Running commands on a disk. A command reads its documents, does its work, and leaves the disk as it
is afterwards with the lines to print and an exit status. Help, completions and complaints about a
command line are worded by the library that reads command lines; their lines are left out.
-/

namespace GioForge.Command

/-- Resolves the actions and compiles; writes the program into a directory or only shows it. -/
def bake (ui : Ui.Graph) (relation : Relation.Graph) (settings : GoSettings) (output : Path)
    (dryRun : Bool) (tree : FileTree) : FileTree × Except Generation.Failure BakeReport :=
  let resolution := Resolution.ofRelation Responders.builtin relation
  let report (diagnostics : List Diagnostic) (result : BakeResult) : BakeReport :=
    { page := ui.page
      elementCount := ui.elements.length
      handlerCount := resolution.handlers.size
      diagnostics := resolution.diagnostics ++ diagnostics
      result }
  if dryRun then
    match Preview.of Translators.builtin ui resolution.handlers settings with
    | .error e => (tree, .error (.compile e))
    | .ok preview => (tree, .ok (report preview.diagnostics (.preview preview.files)))
  else
    match Generation.run ui resolution.handlers settings output tree with
    | (tree, .error failure) => (tree, .error failure)
    | (tree, .ok g) => (tree, .ok (report g.diagnostics (.written output g.written g.skipped)))

/-- Resolves the actions, compiles, and sums up what the program would contain. -/
def check (ui : Ui.Graph) (uiPath : Path) (relation : Relation.Graph) (relationPath : Option Path) :
    Except CompileError CheckReport := do
  let resolution := Resolution.ofRelation Responders.builtin relation
  let c ← Compilation.compose Translators.builtin ui resolution.handlers
  return {
    uiPath
    relationPath
    diagnostics := resolution.diagnostics ++ c.diagnostics
    elements := ui.elements.map fun e => e.kind?.getD ""
    actions := resolution.handlers.keys
    imports := c.program.imports.sorted.map Prod.fst
  }

/-- Resolves the actions and prints the handlers. Notes of no consequence are left out, so that the
regular output is the handlers alone. -/
def actions (relation : Relation.Graph) : List Line :=
  let resolution := Resolution.ofRelation Responders.builtin relation
  diagnosticLines (resolution.diagnostics.filter fun d => d.severity ≠ .info) ++
    [out (Json.pretty (Handlers.value resolution.handlers))]

structure Outcome where
  status : Nat
  lines : List Line := []
  /-- The code of the error that ended the command, if it has one. -/
  code : Option String := none
  deriving DecidableEq, Inhabited

namespace Outcome

def success (lines : List Line) : Outcome := { status := 0, lines }

def failure (code : Option String) (message : String) : Outcome :=
  { status := 1, code, lines := code.toList.map (Line.mk .err) ++ [⟨.err, message⟩] }

def mistake : Outcome := { status := 2 }

def ofDocumentError (e : Document.Error) : Outcome :=
  failure (some e.code) e.message

def ofCompileError (e : CompileError) : Outcome :=
  failure (some e.code) e.message

end Outcome

/-- The settings that count: those of the settings file, with the paths of the command line. -/
def Sources.project (sources : Sources) (tree : FileTree) : Except Document.Error Project := do
  let project ← Project.load tree sources.config
  return { project with
    paths := { project.paths with
      ui := sources.ui.getD project.paths.ui
      relation := sources.relation.getD project.paths.relation } }

structure Inputs where
  project : Project
  ui : Document.Loaded Ui.Graph
  /-- None if there is no such document. -/
  relation : Option (Document.Loaded Relation.Graph)

/-- Reads the settings and both documents, of which the second may be missing. -/
def Sources.load (sources : Sources) (tree : FileTree) : Except Document.Error Inputs := do
  let project ← sources.project tree
  let ui ← Document.load Ui.Graph.decoder tree project.paths.ui
  let relation ← Document.loadOptional Relation.Graph.decoder tree project.paths.relation
  return { project, ui, relation }

def Inputs.scripts (inputs : Inputs) : Relation.Graph :=
  (inputs.relation.map fun doc => doc.value).getD {}

def versionText : String := "msg2go 0.3.0"

/-- The scripts to print the handlers of; settings are only read if no path is given. -/
def loadScripts (sources : Sources) (tree : FileTree) :
    Except Document.Error (Document.Loaded Relation.Graph) := do
  let path ← match sources.relation with
    | some path => pure path
    | none => (Project.load tree sources.config).map fun project => project.paths.relation
  Document.load Relation.Graph.decoder tree path

def Request.run (tree : FileTree) : Request → FileTree × Outcome
  | .help | .completions _ => (tree, .success [])
  | .version => (tree, .success [out versionText])
  | .bake sources output dryRun =>
      match sources.load tree with
      | .error e => (tree, .ofDocumentError e)
      | .ok inputs =>
          let target := output.getD inputs.project.paths.output
          match Command.bake inputs.ui.value inputs.scripts inputs.project.go target dryRun
              tree with
          | (tree, .ok report) => (tree, .success report.lines)
          | (tree, .error (.compile e)) => (tree, .ofCompileError e)
          | (tree, .error .output) => (tree, .failure none "error: the program cannot be written")
  | .check sources =>
      match sources.load tree with
      | .error e => (tree, .ofDocumentError e)
      | .ok inputs =>
          let relationPath := inputs.relation.map fun doc => doc.path
          match Command.check inputs.ui.value inputs.ui.path inputs.scripts relationPath with
          | .ok report => (tree, .success report.lines)
          | .error e => (tree, .ofCompileError e)
  | .actions sources =>
      match loadScripts sources tree with
      | .error e => (tree, .ofDocumentError e)
      | .ok doc => (tree, .success (Command.actions doc.value))

/-- The paths that a request concerns, going by the settings as far as the disk is known. -/
def Request.paths (tree : FileTree) : Request → List Path
  | .bake sources output _ =>
      sources.config :: match sources.project tree with
        | .ok project =>
            let target := output.getD project.paths.output
            [project.paths.ui, project.paths.relation, (OutputFile.source "").path target,
              (OutputFile.manifest project.go).path target]
        | .error _ => []
  | .check sources =>
      sources.config :: match sources.project tree with
        | .ok project => [project.paths.ui, project.paths.relation]
        | .error _ => []
  | .actions sources =>
      sources.config :: match sources.project tree with
        | .ok project => [project.paths.relation]
        | .error _ => []
  | .completions _ | .help | .version => []

def run (tree : FileTree) (arguments : List String) : FileTree × Outcome :=
  match Request.ofArguments? arguments with
  | some request => request.run tree
  | none => (tree, .mistake)

end GioForge.Command
