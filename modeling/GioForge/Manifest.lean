import GioForge.Project

/-!
The manifest of the generated module: its path, the version of the language, and what it requires.
-/

namespace GioForge.Manifest

/-- The version of the user interface library whose own requirements are listed. -/
def pinnedVersion : String := "v0.9.0"

def pinnedRequirements : List (String × String) :=
  [("gioui.org/shader", "v1.0.8"),
    ("github.com/go-text/typesetting", "v0.3.0"),
    ("golang.org/x/exp/shiny", "v0.0.0-20250408133849-7e4ce0ab07d0"),
    ("golang.org/x/image", "v0.26.0"),
    ("golang.org/x/sys", "v0.33.0"),
    ("golang.org/x/text", "v0.24.0")]

/-- The block of indirect requirements, for the version for which they are known. -/
def indirectBlock (gioVersion : String) : String :=
  if gioVersion = pinnedVersion then
    "\nrequire (\n" ++
      String.join (pinnedRequirements.map fun r => "\t" ++ r.1 ++ " " ++ r.2 ++ " // indirect\n") ++
      ")\n"
  else ""

def render (settings : GoSettings) : String :=
  "module " ++ settings.module ++ "\n\ngo " ++ settings.goVersion ++ "\n\nrequire gioui.org " ++
    settings.gioVersion ++ "\n" ++ indirectBlock settings.gioVersion

end GioForge.Manifest
