import GioForge.Output

/-!
What commands print, as lines for one of two streams. Problems go to the stream for problems, all
else to the other one.
-/

namespace GioForge.Command

inductive Stream where
  | out
  | err
  deriving DecidableEq, Inhabited

structure Line where
  stream : Stream
  text : String
  deriving DecidableEq, Inhabited

def out (text : String) : Line := ⟨.out, text⟩

def streamText (stream : Stream) (lines : List Line) : String :=
  String.join ((lines.filter fun l => l.stream = stream).map fun l => l.text ++ "\n")

def streamOf : Severity → Stream
  | .error => .err
  | .warning => .err
  | .info => .out

/-- Findings, the severest first and otherwise in order. -/
def diagnosticLines (diagnostics : List Diagnostic) : List Line :=
  [Severity.error, .warning, .info].flatMap fun severity =>
    (diagnostics.filter fun d => d.severity = severity).map fun d =>
      ⟨streamOf severity, d.display⟩

def keyValue (key value : String) : Line := out (key ++ ": " ++ value)

def heading (name : String) : Line := out (name ++ ":")

def item (text : String) : Line := out ("  - " ++ text)

def divider (label : String) : Line := out ("── " ++ label ++ " ──")

def counted (n : Nat) (name : String) : String :=
  Text.decimalText n ++ " " ++ name ++ (if n = 1 then "" else "s")

inductive BakeResult where
  | written (output : Path) (written skipped : List String)
  | preview (files : List OutputFile)
  deriving DecidableEq, Inhabited

structure BakeReport where
  page : String
  elementCount : Nat
  handlerCount : Nat
  diagnostics : List Diagnostic
  result : BakeResult
  deriving DecidableEq, Inhabited

def BakeReport.resultLines (report : BakeReport) : List Line :=
  match report.result with
  | .written output written skipped =>
      [keyValue "Page" report.page,
        keyValue "Elements" (Text.decimalText report.elementCount),
        keyValue "Actions" (Text.decimalText report.handlerCount), out "",
        heading ("Generated in " ++ output.text)] ++
      written.map (fun name => out ("  + " ++ name)) ++
      skipped.map (fun name => out ("  = " ++ name ++ " (exists, kept)"))
  | .preview files =>
      files.flatMap (fun file => [divider file.name, out file.content]) ++
      [divider "Summary", out (Text.decimalText files.length ++ " files would be generated")]

def BakeReport.lines (report : BakeReport) : List Line :=
  diagnosticLines report.diagnostics ++ report.resultLines

structure CheckReport where
  uiPath : Path
  /-- None if there is no such document. -/
  relationPath : Option Path
  diagnostics : List Diagnostic
  /-- The kinds of the elements in order. -/
  elements : List String
  actions : List String
  /-- The packages the program imports. -/
  imports : List String
  deriving DecidableEq, Inhabited

def CheckReport.lines (report : CheckReport) : List Line :=
  diagnosticLines report.diagnostics ++
    (if report.diagnostics.any fun d => d.severity.isWarning then [out ""] else []) ++
    [out ("✓ " ++ report.uiPath.text ++ " compiles"),
      keyValue "  relation" ((report.relationPath.map Path.text).getD "none"), out "",
      heading ("  " ++ counted report.elements.length "element")] ++
    report.elements.zipIdx.map
      (fun (kind, index) => item ("[" ++ Text.decimalText index ++ "] " ++ kind)) ++
    (if report.actions.isEmpty then []
      else [out "", heading ("  " ++ counted report.actions.length "action")] ++
        report.actions.map item) ++
    [out "", heading "  imports"] ++ report.imports.map item

end GioForge.Command
