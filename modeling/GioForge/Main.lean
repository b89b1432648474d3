import GioForge.Command.Run

/-!
The program itself. It looks at the places on the disk that a command line concerns, runs the
command on that picture of the disk, and then does on the disk what the command did to the picture.
-/

namespace GioForge.Command

def systemPath (location : Location) : String :=
  "/" ++ String.intercalate "/" location

/-- What is at a place; what cannot be read counts as missing. -/
def look (location : Location) : IO (Option Entry) := do
  try
    let path ← IO.FS.realPath (systemPath location)
    if ← path.isDir then return some .directory
    let bytes ← IO.FS.readBinFile path
    match String.fromUTF8? bytes with
    | some s => return some (.file (.text s))
    | none => return some (.file (.binary bytes.toList))
  catch _ => return none

def survey (tree : FileTree) (paths : List Path) : IO FileTree := do
  let mut seen := tree
  for path in paths do
    for location in FileTree.waypoints (tree.origin path) path.parts do
      if let some entry ← look location then
        seen := seen.plant location entry
  return seen

def carryOut (location : Location) (entry : Entry) : IO Unit :=
  let path := systemPath location
  match entry with
  | .directory => IO.FS.createDirAll path
  | .file (.text s) => IO.FS.writeFile path s
  | .file (.binary bytes) => IO.FS.writeBinFile path ⟨bytes.toArray⟩

def print (line : Line) : IO Unit :=
  match line.stream with
  | .out => IO.println line.text
  | .err => IO.eprintln line.text

/-- What is known of the disk before a command runs. The settings say which places there are to look
at, so they are looked up first. -/
def surveyFor (arguments : List String) : IO FileTree := do
  let here ← IO.currentDir
  let directory := ((⟨here.toString⟩ : Path).parts).filter fun part => !part.isEmpty
  let start ← survey { workingDirectory := directory } [⟨here.toString⟩]
  match Request.ofArguments? arguments with
  | none => return start
  | some request =>
      let settled ← survey start (request.paths start)
      survey settled (request.paths settled)

end GioForge.Command

def main (arguments : List String) : IO UInt32 := do
  let before ← GioForge.Command.surveyFor arguments
  let (after, outcome) := GioForge.Command.run before arguments
  for (location, entry) in GioForge.FileTree.updates before after do
    GioForge.Command.carryOut location entry
  for line in outcome.lines do
    GioForge.Command.print line
  return UInt32.ofNat outcome.status
