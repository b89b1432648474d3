import GioForge.Program
import GioForge.Proofs.Code.Layout

/-!
The lines of a program from top to bottom. Between the parts that differ from program
to program (imports, window options, variables and slots) stand lines that are the
same in all of them.
-/

namespace GioForge.Program

open Code Fragment

def headLines : List Line :=
  [⟨0, generatedHeader⟩, ⟨0, ""⟩, ⟨0, "package main"⟩, ⟨0, ""⟩, ⟨0, "import ("⟩]

/-- From the end of the import block to the start of the window options. -/
def windowLines : List Line :=
  [⟨0, ")"⟩, ⟨0, ""⟩, ⟨0, "func main() \x7b"⟩, ⟨1, "go func() \x7b"⟩,
    ⟨2, "w := new(app.Window)"⟩, ⟨2, "w.Option("⟩]

def themeLines : List Line :=
  [⟨2, ")"⟩, ⟨2, ""⟩, ⟨2, "var ops op.Ops"⟩, ⟨2, "th := material.NewTheme()"⟩]

def frameLines : List Line :=
  [⟨2, ""⟩, ⟨2, "for \x7b"⟩, ⟨3, "switch e := w.Event().(type) \x7b"⟩,
    ⟨3, "case app.FrameEvent:"⟩, ⟨4, "gtx := app.NewContext(&ops, e)"⟩,
    ⟨4, "paint.Fill(gtx.Ops, th.Bg)"⟩]

def tailLines : List Line :=
  [⟨4, "e.Frame(gtx.Ops)"⟩, ⟨3, "case app.DestroyEvent:"⟩, ⟨4, "os.Exit(0)"⟩, ⟨3, "\x7d"⟩,
    ⟨2, "\x7d"⟩, ⟨1, "\x7d()"⟩, ⟨1, "app.Main()"⟩, ⟨0, "\x7d"⟩]

def importLines (program : Program) : List Line :=
  program.imports.sorted.map fun entry => ⟨1, "\"" ++ entry.1 ++ "\""⟩

def optionLines (program : Program) : List Line :=
  program.window.options.map fun option => ⟨3, option.expression ++ ","⟩

def stateLines (program : Program) : List Line :=
  if program.state.isEmpty then []
  else ⟨2, ""⟩ :: program.state.map fun v => ⟨2, v.declaration⟩

def slotLines (body : List Fragment) : List Line :=
  ⟨5, "layout.Rigid(func(gtx layout.Context) layout.Dimensions \x7b"⟩ ::
    linesOf 6 body ++ [⟨5, "\x7d),"⟩]

def flexLines (program : Program) : List Line :=
  if program.slots.isEmpty then [⟨4, flexStart ++ ")"⟩]
  else ⟨4, flexStart ++ ","⟩ :: program.slots.flatMap slotLines ++ [⟨4, ")"⟩]

def lines (program : Program) : List Line :=
  headLines ++ program.importLines ++ windowLines ++ program.optionLines ++ themeLines ++
    program.stateLines ++ frameLines ++ program.flexLines ++ tailLines

/-- The layout is built as nested fragments and is these lines. -/
theorem lines_flex (program : Program) : program.flex.lines 4 = program.flexLines := by
  unfold flex flexLines
  split
  · rfl
  · simp only [Fragment.lines, linesOf_map, Option.toList_some, List.map_singleton]
    rfl

theorem linesOf_setup (program : Program) :
    linesOf 2 program.setup = [⟨2, "w := new(app.Window)"⟩, ⟨2, "w.Option("⟩] ++
      program.optionLines ++ themeLines ++ program.stateLines := by
  unfold setup stateLines optionLines themeLines
  rw [linesOf_append]
  cases hstate : program.state with
  | nil => simp [linesOf, Fragment.lines, linesOf_map_line]
  | cons v rest => simp [linesOf, Fragment.lines, linesOf_map_line]

/-- The lines of the fragments of a program are the lines of the program. -/
theorem linesOf_fragments (program : Program) : linesOf 0 program.fragments = program.lines := by
  have himports : program.importBlock.lines 0 =
      ⟨0, "import ("⟩ :: program.importLines ++ [⟨0, ")"⟩] := by
    simp [importBlock, importLines, Fragment.lines, linesOf_map_line]
  have hloop : program.eventLoop.lines 2 =
      [⟨2, "for \x7b"⟩, ⟨3, "switch e := w.Event().(type) \x7b"⟩, ⟨3, "case app.FrameEvent:"⟩,
        ⟨4, "gtx := app.NewContext(&ops, e)"⟩, ⟨4, "paint.Fill(gtx.Ops, th.Bg)"⟩] ++
      program.flexLines ++
      [⟨4, "e.Frame(gtx.Ops)"⟩, ⟨3, "case app.DestroyEvent:"⟩, ⟨4, "os.Exit(0)"⟩, ⟨3, "\x7d"⟩,
        ⟨2, "\x7d"⟩] := by
    simp [eventLoop, Fragment.lines, linesOf, lines_flex]
  simp [fragments, lines, linesOf, Fragment.lines, himports, linesOf_append, linesOf_setup, hloop,
    headLines, windowLines, themeLines, frameLines, tailLines]

/-- A program can be scanned line by line, if each of its lines can be scanned. -/
theorem lex_source (program : Program)
    (h : ∀ line ∈ program.lines, (Go.lex line.text).isSome = true) :
    Go.lex program.source = some (program.lines.flatMap Line.tokens) := by
  rw [← linesOf_fragments] at h ⊢
  exact lex_render program.fragments h

end GioForge.Program
