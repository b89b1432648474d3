/-!
Findings that do not stop a compilation: what was noticed, by which stage, and where in the input.
-/

namespace GioForge

inductive Severity where
  | error
  | warning
  | info
  deriving DecidableEq, Inhabited

namespace Severity

def word : Severity → String
  | .error => "error"
  | .warning => "warning"
  | .info => "info"

def isError (s : Severity) : Bool :=
  s = .error

def isWarning (s : Severity) : Bool :=
  s = .warning

end Severity

structure Diagnostic where
  severity : Severity
  /-- The stage that made the finding. -/
  phase : String
  message : String
  /-- The place in the input, such as `elements[2]`. -/
  location : Option String := none
  deriving DecidableEq, Inhabited

namespace Diagnostic

def locatedAt (d : Diagnostic) (place : String) : Diagnostic :=
  { d with location := some place }

def body (d : Diagnostic) : String :=
  match d.location with
  | some place => d.message ++ " (at " ++ place ++ ")"
  | none => d.message

def display (d : Diagnostic) : String :=
  d.severity.word ++ ": " ++ d.body

end Diagnostic

end GioForge
