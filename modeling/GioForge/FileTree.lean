import GioForge.Data.Table
import GioForge.Path

/-!
A disk as a value: directories and files under a root, and the directory in which a program runs.
Operations fail for the reasons a disk of only files and directories has, namely that something is
missing, is there already, is no directory, or is one, and that a name or a path is none that a disk
takes.
-/

namespace GioForge

inductive Content where
  | text (s : String)
  /-- Bytes that are no text. -/
  | binary (bytes : List UInt8)
  deriving DecidableEq, Inhabited

inductive Entry where
  | file (content : Content)
  | directory
  deriving DecidableEq, Inhabited

abbrev Location := List String

inductive Obstacle where
  /-- Something on the way, or at its end, is missing. -/
  | missing
  /-- Something on the way is no directory. -/
  | notDirectory
  /-- Something is there already. -/
  | present
  /-- What is there is a directory. -/
  | isDirectory
  /-- The path, or a name in it, is too long or holds a character that no name has. -/
  | unusable
  deriving DecidableEq, Inhabited

def nameLimit : Nat := 255

def pathLimit : Nat := 4095

/-- Whether a name is short enough to be looked for in a directory. -/
def isUsableName (name : String) : Bool :=
  name.utf8ByteSize ≤ nameLimit

/-- Whether a path can be given to a disk at all. This does not depend on what is there, so it comes
in front of everything else. -/
def Path.isUsable (path : Path) : Bool :=
  path.text.utf8ByteSize ≤ pathLimit && !path.text.toList.contains '\x00'

structure FileTree where
  /-- Everything below the root. -/
  contents : Table Location Entry := .empty
  /-- Where relative paths start. -/
  workingDirectory : Location := []
  deriving Inhabited

namespace FileTree

/-- What is at a location; the root is a directory. -/
def get? (tree : FileTree) (location : Location) : Option Entry :=
  if location.isEmpty then some .directory else tree.contents.get? location

def set (tree : FileTree) (location : Location) (entry : Entry) : FileTree :=
  { tree with contents := tree.contents.insert location entry }

/-- Setting one location leaves all others alone. -/
theorem get?_set (tree : FileTree) (location : Location) (entry : Entry) (l : Location)
    (h : location ≠ []) :
    (tree.set location entry).get? l = if l = location then some entry else tree.get? l := by
  unfold get? set
  by_cases hl : l = []
  · subst hl
    simp [Ne.symm h]
  · simp [hl, Table.get?_insert]

def erase (tree : FileTree) (location : Location) : FileTree :=
  { tree with contents := tree.contents.erase location }

/-- Follows the parts of a path from a directory. Each part is looked for in what the parts before
it lead to, which has to be a directory; an empty part and a single dot stay there. -/
def walk (tree : FileTree) (here : Location) : List String → Except Obstacle Location
  | [] => .ok here
  | part :: rest =>
      match tree.get? here with
      | none => .error .missing
      | some (.file _) => .error .notDirectory
      | some .directory =>
          if part = "" || part = "." then walk tree here rest
          else if part = ".." then walk tree here.dropLast rest
          else if isUsableName part then walk tree (here ++ [part]) rest
          else .error .unusable

def origin (tree : FileTree) (path : Path) : Location :=
  if path.isAbsolute then [] else tree.workingDirectory

/-- The places that the parts of a path lead past from a directory, both ends included, whatever is
there. -/
def waypoints (here : Location) : List String → List Location
  | [] => [here]
  | part :: rest =>
      here :: (if part = "" || part = "." then waypoints here rest
        else if part = ".." then waypoints here.dropLast rest
        else waypoints (here ++ [part]) rest)

/-- Where a path leads, whether or not there is anything at its end. -/
def locate (tree : FileTree) (path : Path) : Except Obstacle Location :=
  if path.text.isEmpty then .error .missing
  else if path.isUsable then tree.walk (tree.origin path) path.parts
  else .error .unusable

def find (tree : FileTree) (path : Path) : Except Obstacle Entry := do
  match tree.get? (← tree.locate path) with
  | some entry => return entry
  | none => throw .missing

def exists? (tree : FileTree) (path : Path) : Bool :=
  (tree.find path).toBool

def isDirectory (tree : FileTree) (path : Path) : Bool :=
  match tree.find path with
  | .ok .directory => true
  | _ => false

def readText? (tree : FileTree) (path : Path) : Option String :=
  match tree.find path with
  | .ok (.file (.text s)) => some s
  | _ => none

/-- The directory in which the last part of a path lies, and that part; fails for a part that names
no place of its own in a directory. -/
def locateLast (tree : FileTree) (path : Path) (parts : List String) :
    Except Obstacle (Location × String) := do
  match parts.getLast? with
  | none => throw .missing
  | some name =>
      let here ← tree.walk (tree.origin path) parts.dropLast
      match tree.get? here with
      | some .directory =>
          if name = "" || name = "." || name = ".." then throw .present
          else if isUsableName name then return (here, name)
          else throw .unusable
      | some (.file _) => throw .notDirectory
      | none => throw .missing

def significantParts (path : Path) : List String :=
  (path.parts.reverse.dropWhile String.isEmpty).reverse

def makeDirectory (tree : FileTree) (path : Path) : Except Obstacle FileTree := do
  if path.text.isEmpty then throw .missing
  if !path.isUsable then throw .unusable
  if (significantParts path).isEmpty then throw .present
  let (here, name) ← tree.locateLast path (significantParts path)
  match tree.get? (here ++ [name]) with
  | some _ => throw .present
  | none => return tree.set (here ++ [name]) .directory

/-- Makes a directory and those above it that are missing; `fuel` bounds their number. Gives the
disk as it is afterwards and whether the directory is there; directories made before a failure stay.
-/
def makeDirectories : Nat → Path → FileTree → FileTree × Bool
  | 0, _, tree => (tree, false)
  | fuel + 1, path, tree =>
      if path.text.isEmpty then (tree, true)
      else
        match tree.makeDirectory path with
        | .ok made => (made, true)
        | .error .missing =>
            match path.parent? with
            | none => (tree, false)
            | some above =>
                match makeDirectories fuel above tree with
                | (tree, false) => (tree, false)
                | (tree, true) =>
                    match tree.makeDirectory path with
                    | .ok made => (made, true)
                    | .error _ => (tree, tree.isDirectory path)
        | .error _ => (tree, tree.isDirectory path)

/-- Writes a text to a file, over what it held, in a directory that is there. -/
def writeText (tree : FileTree) (path : Path) (s : String) : Except Obstacle FileTree := do
  if path.text.isEmpty then throw .missing
  if !path.isUsable then throw .unusable
  let (here, name) ← tree.locateLast path path.parts
  match tree.get? (here ++ [name]) with
  | some .directory => throw .isDirectory
  | _ => return tree.set (here ++ [name]) (.file (.text s))

def store (tree : FileTree) (path : Path) (s : String) : FileTree × Bool :=
  let (tree, ready) := match path.parent? with
    | some above => makeDirectories (above.text.length + 1) above tree
    | none => (tree, true)
  if ready then
    match tree.writeText path s with
    | .ok written => (written, true)
    | .error _ => (tree, false)
  else (tree, false)

/-- Puts something at a location together with the directories above it. -/
def plant (tree : FileTree) (location : Location) (entry : Entry) : FileTree :=
  let above := (List.range location.length).map location.take
  let tree := above.foldl (fun tree l =>
    if (tree.get? l).isSome then tree else tree.set l .directory) tree
  match tree.get? location, entry with
  | some .directory, .directory => tree
  | _, _ => if location.isEmpty then tree else tree.set location entry

/-- What a change put onto the disk, directories in front of what lies in them. -/
def updates (before after : FileTree) : List (Location × Entry) :=
  after.contents.entries.filter fun e => before.get? e.1 ≠ some e.2

def relative? (tree : FileTree) (location : Location) : Option String :=
  if tree.workingDirectory.isPrefixOf location && location ≠ tree.workingDirectory then
    some (String.intercalate "/" (location.drop tree.workingDirectory.length))
  else none

/-- The files below the working directory and what they hold. A directory with nothing in it is
listed with a slash behind its name, as if it were an empty file. -/
def listing (tree : FileTree) : List (String × Content) :=
  tree.contents.entries.filterMap fun (location, entry) =>
    (tree.relative? location).bind fun name =>
      match entry with
      | .file content => some (name, content)
      | .directory =>
          if tree.contents.keys.any fun l => l.dropLast = location then none
          else some (name ++ "/", .text "")

def changes (before after : FileTree) : List (String × Content) :=
  let old := before.listing
  after.listing.filter fun entry => old.lookup entry.1 ≠ some entry.2

end FileTree

end GioForge
