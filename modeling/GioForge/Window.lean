import GioForge.Code.Imports
import GioForge.Go.Literal
import GioForge.Ui.Basic

/-!
The window of a program. There always is one: what a document leaves open is filled with defaults,
so that every program can be started.
-/

namespace GioForge

inductive WindowOption where
  | title (text : String)
  | size (width height : UInt32)
  | minSize (width height : UInt32)
  | maxSize (width height : UInt32)
  | fullscreen
  deriving DecidableEq, Inhabited

namespace WindowOption

def dimensions (width height : UInt32) : String :=
  "unit.Dp(" ++ Text.decimalText width.toNat ++ "), unit.Dp(" ++
    Text.decimalText height.toNat ++ ")"

def expression : WindowOption → String
  | .title text => "app.Title(" ++ Go.quote text ++ ")"
  | .size width height => "app.Size(" ++ dimensions width height ++ ")"
  | .minSize width height => "app.MinSize(" ++ dimensions width height ++ ")"
  | .maxSize width height => "app.MaxSize(" ++ dimensions width height ++ ")"
  | .fullscreen => "app.Fullscreen.Option()"

def symbol : WindowOption → String
  | .title _ => "Title"
  | .size _ _ => "Size"
  | .minSize _ _ => "MinSize"
  | .maxSize _ _ => "MaxSize"
  | .fullscreen => "Fullscreen"

def hasLengths : WindowOption → Bool
  | .size _ _ | .minSize _ _ | .maxSize _ _ => true
  | .title _ | .fullscreen => false

end WindowOption

structure Window where
  options : List WindowOption
  /-- The icon the document asks for, which no option can set. -/
  icon : Option String := none
  deriving DecidableEq, Inhabited

namespace Window

def defaultTitle : String := "Untitled"

def defaultWidth : UInt32 := 800

def defaultHeight : UInt32 := 600

/-- The window a document describes. A blank title and a length of zero count as left open. -/
def ofSpec (spec : Option Ui.WindowSpec) : Window :=
  let spec := spec.getD {}
  let title := (spec.title.filter fun t => !Text.isBlankText t).getD defaultTitle
  let width := (spec.width.filter (· > 0)).getD defaultWidth
  let height := (spec.height.filter (· > 0)).getD defaultHeight
  let minSize := spec.minSize.map fun s => WindowOption.minSize s.dimensions.1 s.dimensions.2
  let maxSize := spec.maxSize.map fun s => WindowOption.maxSize s.dimensions.1 s.dimensions.2
  let fullscreen := if spec.fullscreen = some true then [WindowOption.fullscreen] else []
  { options := [.title title, .size width height] ++ minSize.toList ++ maxSize.toList ++ fullscreen
    icon := spec.icon }

def imports (window : Window) : Code.Imports :=
  window.options.foldl
    (fun all option =>
      let all := all.add "gioui.org/app" option.symbol
      if option.hasLengths then all.add "gioui.org/unit" "Dp" else all)
    (Code.Imports.empty.add "gioui.org/app" "Window")

end Window

end GioForge
