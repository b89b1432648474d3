/-!
Paths as people write them. A path is its text: joining and taking apart never look at a disk, and a
path is not brought into a normal form, so what is shown is what was written. Two texts may still be
the same path; `Path.same` says which.
-/

namespace GioForge

structure Path where
  text : String
  deriving DecidableEq, Inhabited

namespace Path

def isAbsolute (p : Path) : Bool :=
  p.text.toList.head? == some '/'

/-- The path `q` as seen from the directory `p`. A slash is put between them unless there is nothing
in front of it or one is there already; an absolute path stands for itself. -/
def join (p q : Path) : Path :=
  if q.isAbsolute then q
  else if p.text.isEmpty || p.text.toList.getLast? == some '/' then ⟨p.text ++ q.text⟩
  else ⟨p.text ++ "/" ++ q.text⟩

def splitSlash : List Char → List (List Char)
  | [] => [[]]
  | c :: rest =>
      if c = '/' then [] :: splitSlash rest
      else
        match splitSlash rest with
        | [] => [[c]]
        | first :: others => (c :: first) :: others

/-- What stands between the slashes, in order; parts may be empty. -/
def parts (p : Path) : List String :=
  (splitSlash p.text.toList).map String.ofList

/-- What a path is made of: the root or the current directory if it starts there, and then the parts
that lead on. Empty parts and further single dots lead nowhere. -/
def components (p : Path) : List String :=
  let start :=
    if p.isAbsolute then ["/"] else if p.parts.head? = some "." then ["."] else []
  start ++ p.parts.filter fun part => part ≠ "" && part ≠ "."

/-- Whether two paths are made of the same components. -/
def same (p q : Path) : Bool :=
  p.components = q.components

/-- The characters of a path that are part of no component and lie at its start: the slash of an
absolute path, or a single dot that names the current directory. -/
def rootLength (cs : List Char) : Nat :=
  match cs with
  | '/' :: _ => 1
  | ['.'] => 1
  | '.' :: '/' :: _ => 1
  | _ => 0

/-- The last part of a path behind its first `root` characters, and the text in front of the part
without the slash that divides them. -/
def cutLast (root : Nat) (cs : List Char) : List Char × List Char :=
  let body := cs.drop root
  let last := (body.reverse.takeWhile (· != '/')).reverse
  let front := body.take (body.length - last.length)
  (cs.take root ++ front.dropLast, last)

/-- The text without empty parts and dots at its end; `fuel` bounds their number. -/
def trimDots (root : Nat) : Nat → List Char → List Char
  | 0, cs => cs
  | fuel + 1, cs =>
      if cs.length ≤ root then cs
      else
        let (front, last) := cutLast root cs
        if last = [] || last = ['.'] then trimDots root fuel front else cs

/-- The last component and the text in front of it: none for an empty path, the root itself, and the
current directory, which has nothing in front of it. -/
def splitLast? (cs : List Char) : Option (List Char × List Char) :=
  let root := rootLength cs
  let trimmed := trimDots root (cs.length + 1) cs
  if trimmed.length ≤ root then
    if cs.head? = some '.' && root = 1 then some ([], ['.']) else none
  else
    let (front, last) := cutLast root trimmed
    some (trimDots root (cs.length + 1) front, last)

def parent? (p : Path) : Option Path :=
  (splitLast? p.text.toList).map fun r => ⟨String.ofList r.1⟩

/-- The name of the file that a path leads to; a path that ends in dots leads to none. -/
def fileName? (p : Path) : Option (List Char) :=
  match splitLast? p.text.toList with
  | some (_, name) => if name = ['.'] || name = ['.', '.'] then none else some name
  | none => none

/-- What follows the last dot in the name of a file, unless nothing comes before the dot. -/
def extension? (p : Path) : Option String := do
  let name ← p.fileName?
  guard (name.contains '.')
  let ending := (name.reverse.takeWhile (· != '.')).reverse
  guard (name.length ≠ ending.length + 1)
  return String.ofList ending

end Path

end GioForge
