import GioForge.Code.Writer
import GioForge.Component.Basic
import GioForge.Window

/-!
The shape of a program: one window, variables that last, and a loop that lays out one slot below the
other in every frame.
-/

namespace GioForge

def generatedHeader : String := "// Code generated by msg2go. DO NOT EDIT."

structure Program where
  imports : Code.Imports
  window : Window
  state : List StateVariable
  /-- The statements of the slots, from top to bottom. -/
  slots : List (List Code.Fragment)

namespace Program

open Code Fragment

def baselineImports : Imports :=
  ((((((Imports.empty.add "os" "Exit").addAll "gioui.org/app"
    ["Main", "NewContext", "FrameEvent", "DestroyEvent"]).addAll "gioui.org/layout"
    ["Flex", "Vertical", "Rigid", "Context", "Dimensions"]).add "gioui.org/op" "Ops").add
    "gioui.org/op/paint" "Fill").add "gioui.org/widget/material" "NewTheme")

def beginsWithReturn (line : String) : Bool :=
  "return".toList.isPrefixOf (Text.trimStart line.toList)

/-- The statements of a slot, with a last one that returns if they do not end in one. -/
def ensureReturn (body : List Fragment) : List Fragment :=
  if (lastLineOf? body).any beginsWithReturn then body
  else body ++ [.line "return layout.Dimensions\x7b\x7d"]

def importBlock (program : Program) : Fragment :=
  .block "import (" (program.imports.sorted.map fun entry => .line ("\"" ++ entry.1 ++ "\""))
    (some ")")

/-- The window, the variables of the library and those of the components. -/
def setup (program : Program) : List Fragment :=
  let options := program.window.options.map fun option => line (option.expression ++ ",")
  let state := program.state.map fun v => line v.declaration
  [.line "w := new(app.Window)", .block "w.Option(" options (some ")"), .blank,
    .line "var ops op.Ops", .line "th := material.NewTheme()"] ++
    (if state.isEmpty then [] else .blank :: state)

def flexStart : String :=
  "layout.Flex\x7bAxis: layout.Vertical\x7d.Layout(gtx"

def slot (body : List Fragment) : Fragment :=
  .block "layout.Rigid(func(gtx layout.Context) layout.Dimensions \x7b" body (some "\x7d),")

def flex (program : Program) : Fragment :=
  if program.slots.isEmpty then .line (flexStart ++ ")")
  else .block (flexStart ++ ",") (program.slots.map slot) (some ")")

def eventLoop (program : Program) : Fragment :=
  .block "for \x7b"
    [.line "switch e := w.Event().(type) \x7b",
      .line "case app.FrameEvent:",
      .indented [.line "gtx := app.NewContext(&ops, e)", .line "paint.Fill(gtx.Ops, th.Bg)",
        program.flex, .line "e.Frame(gtx.Ops)"],
      .line "case app.DestroyEvent:",
      .indented [.line "os.Exit(0)"],
      .line "\x7d"]
    (some "\x7d")

def fragments (program : Program) : List Fragment :=
  [.line generatedHeader, .blank, .line "package main", .blank, program.importBlock, .blank,
    .block "func main() \x7b"
      [.block "go func() \x7b" (program.setup ++ [.blank, program.eventLoop]) (some "\x7d()"),
        .line "app.Main()"]
      (some "\x7d")]

def source (program : Program) : String :=
  Code.render program.fragments

end Program

end GioForge
