import GioForge.Compilation
import GioForge.Manifest

/-!
The files of a program and how they get onto a disk. The source is written anew every time; the
manifest belongs to its users once it is there.
-/

namespace GioForge

/-- When a file is written although there is something at its path. -/
inductive Overwrite where
  | always
  | ifMissing
  deriving DecidableEq, Inhabited

structure OutputFile where
  /-- Its path below the output directory. -/
  name : String
  overwrite : Overwrite := .always
  content : String
  deriving DecidableEq, Inhabited

inductive WriteResult where
  | written
  /-- There was something at its path. -/
  | skipped
  deriving DecidableEq, Inhabited

namespace OutputFile

def path (file : OutputFile) (base : Path) : Path :=
  base.join ⟨file.name⟩

/-- Writes the file; gives the disk as it is afterwards, and no result if writing failed. -/
def write (file : OutputFile) (base : Path) (tree : FileTree) : FileTree × Option WriteResult :=
  let path := file.path base
  if file.overwrite = .ifMissing && tree.exists? path then (tree, some .skipped)
  else
    match tree.store path file.content with
    | (tree, true) => (tree, some .written)
    | (tree, false) => (tree, none)

def source (text : String) : OutputFile :=
  { name := "main.go", content := text }

def manifest (settings : GoSettings) : OutputFile :=
  { name := "go.mod", overwrite := .ifMissing, content := Manifest.render settings }

end OutputFile

structure Generation where
  written : List String := []
  skipped : List String := []
  diagnostics : List Diagnostic := []
  deriving DecidableEq, Inhabited

namespace Generation

inductive Failure where
  /-- It cannot be compiled. -/
  | compile (error : CompileError)
  /-- A file cannot be written. -/
  | output
  deriving DecidableEq, Inhabited

def files (c : Compilation) (settings : GoSettings) : List OutputFile :=
  [.source c.source, .manifest settings]

def writeAll (base : Path) (done : Generation) (tree : FileTree) :
    List OutputFile → FileTree × Except Failure Generation
  | [] => (tree, .ok done)
  | file :: rest =>
      match file.write base tree with
      | (tree, some .written) =>
          writeAll base { done with written := done.written ++ [file.name] } tree rest
      | (tree, some .skipped) =>
          writeAll base { done with skipped := done.skipped ++ [file.name] } tree rest
      | (tree, none) => (tree, .error .output)

/-- Compiles and then writes the files of the program into a directory. Nothing is written if the
program cannot be compiled. -/
def run (ui : Ui.Graph) (handlers : Handlers) (settings : GoSettings) (base : Path)
    (tree : FileTree) : FileTree × Except Failure Generation :=
  match Compilation.compose Translators.builtin ui handlers with
  | .error e => (tree, .error (.compile e))
  | .ok c => writeAll base { diagnostics := c.diagnostics } tree (files c settings)

end Generation

structure Preview where
  files : List OutputFile
  diagnostics : List Diagnostic
  deriving DecidableEq, Inhabited

def Preview.of (translators : Translators) (ui : Ui.Graph) (handlers : Handlers)
    (settings : GoSettings) : Except CompileError Preview := do
  let c ← Compilation.compose translators ui handlers
  return { files := Generation.files c settings, diagnostics := c.diagnostics }

end GioForge
