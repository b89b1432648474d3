import GioForge.Component.Builtin
import GioForge.Program
import GioForge.Resolution

/-!
Compiling a user interface and its handlers to a program. The first element that cannot be
translated ends the compilation; everything else that is worth noting goes into the diagnostics.
-/

namespace GioForge

structure Compilation where
  program : Program
  diagnostics : List Diagnostic

namespace Compilation

def phase : String := "compose"

def warning (message place : String) : Diagnostic :=
  { severity := .warning, phase, message, location := some place }

structure Placed where
  index : Nat
  element : Ui.Element
  component : Component

def translate (translators : Translators) (elements : List Ui.Element) :
    Except CompileError (List Placed) :=
  elements.zipIdx.mapM fun (element, index) => do
    return ⟨index, element, ← translators.instantiate index element⟩

def iconWarnings (window : Window) : List Diagnostic :=
  (window.icon.map fun icon =>
    warning ("window icon '" ++ icon ++
      "' cannot be set through Gio window options and was ignored") "window.icon").toList

/-- The warning for an element whose action comes to nothing. -/
def actionWarnings (handlers : Handlers) (p : Placed) : List Diagnostic :=
  match p.element.action? with
  | none => []
  | some action =>
      let place := CompileError.placeOf p.index
      if p.component.signal.isNone then
        [warning ("'" ++ p.component.kind ++ "' elements are not interactive; action '" ++ action ++
          "' is ignored") place]
      else if !handlers.contains action then
        [warning ("no script defines action '" ++ action ++
          "'; the element renders without interaction") place]
      else []

def messageSlot : List Code.Fragment :=
  [.block ("if " ++ messageVariable ++ " == \"\" \x7b")
      [.line "return layout.Dimensions\x7b\x7d"] (some "\x7d"),
    .line ("return material.Body1(th, " ++ messageVariable ++ ").Layout(gtx)")]

/-- Puts the parts of a program together. If there are handlers there is a message to show, below
all elements. -/
def assemble (window : Window) (handlers : Handlers) (placed : List Placed) : Program :=
  let imports := placed.foldl (fun all p => all.merge p.component.imports)
    (Program.baselineImports.merge window.imports)
  let state := placed.filterMap fun p => p.component.state
  let slots := placed.map fun p => Program.ensureReturn (p.component.render (some handlers))
  if handlers.isEmpty then { imports, window, state, slots }
  else
    { imports := imports.add Component.materialPackage "Body1"
      window
      state := state ++ [⟨messageVariable, "string"⟩]
      slots := slots ++ [messageSlot] }

def compose (translators : Translators) (ui : Ui.Graph) (handlers : Handlers) :
    Except CompileError Compilation := do
  let window := Window.ofSpec ui.window
  let placed ← translate translators ui.elements
  return {
    program := assemble window handlers placed
    diagnostics := iconWarnings window ++ placed.flatMap (actionWarnings handlers)
  }

def source (c : Compilation) : String :=
  c.program.source

end Compilation

def compile (ui : Ui.Graph) (handlers : Handlers) : Except CompileError String :=
  (Compilation.compose Translators.builtin ui handlers).map Compilation.source

end GioForge
