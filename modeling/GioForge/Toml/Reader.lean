import GioForge.Toml.Item
import GioForge.Toml.Scalar
import GioForge.Toml.Text

/-!
From a TOML text to its document tree. Nothing is said about what is wrong with a text that does not
follow the format; it has no tree.
-/

namespace GioForge.Toml

open Document (Node Fault)

def nesting : Nat := 80

def momentKey : String := "$__toml_private_datetime"

/-- Whole numbers that have no place in a document tree but may be passed over. -/
def isPassable (n : Int) : Bool :=
  -(twoTo 127 : Int) ≤ n && n < (twoTo 128 : Int)

/-- A number that nobody may look at. -/
def valuelessNode : Node :=
  .broken 0 (Document.Break.plain .mismatched)

/-- A whole number as a node. Using one that fits in no exact number is a mismatch, and one that
needs more than 128 bits has no value at all. -/
def integerNode (n : Int) : Node :=
  if 0 ≤ n && n ≤ Number.naturalLimit then .number 0 (.ok (.natural n.toNat))
  else if n < 0 && -n ≤ Number.negativeLimit then .number 0 (.ok (.negative n.natAbs))
  else if isPassable n then .number 0 (.error .mismatched)
  else valuelessNode

def Scalar.node : Scalar → Node
  | .bool b => .bool 0 b
  | .integer n => integerNode n
  | .binary x => .number 0 (.ok (.binary x))
  | .unbounded => .unbounded 0
  | .valueless => valuelessNode
  | .moment text => .object 0 [(.ok momentKey, .text 0 (.ok text))] none

/-- Reads what is listed up to a closing bracket: things with commas between them and perhaps one
behind the last. `fuel` bounds their number. -/
def listed {α : Type} (close : Char) (thing : Reader α) : Nat → Reader (List α)
  | 0, _ => none
  | fuel + 1, cs => do
      match ← skipTrivia false cs with
      | [] => none
      | c :: rest =>
          if c = close then return ([], rest)
          else
            let (first, rest) ← thing (c :: rest)
            match ← skipTrivia false rest with
            | [] => none
            | c :: rest =>
                if c = close then return ([first], rest)
                else if c = ',' then
                  let (others, rest) ← listed close thing fuel rest
                  return (first :: others, rest)
                else none

/-- Reads a key and the value behind it. `skip` passes over what may stand around the sign between
them. -/
def assignment (skip : List Char → Option (List Char)) (value : Reader Node) (cs : List Char) :
    Option ((List String × Node) × List Char) := do
  let (path, rest) ← key cs
  match ← skip rest with
  | '=' :: rest =>
      let (node, rest) ← value (← skip rest)
      return ((path, node), rest)
  | _ => none

def inlineTable (pairs : List (List String × Node)) : Option Node :=
  (pairs.foldlM (fun (entries : Entries) pair => entries.assign pair.1 pair.2) []).map
    fun entries => (Item.table .header entries).node

/-- Reads a value in which so many arrays and inline tables may be open inside each other. -/
def value : Nat → Reader Node
  | room, cs =>
      match cs with
      | '"' :: _ => (string cs).map fun r => (.text 0 (.ok r.1), r.2)
      | '\'' :: _ => (string cs).map fun r => (.text 0 (.ok r.1), r.2)
      | '[' :: rest =>
          match room with
          | 0 => none
          | room + 1 =>
              (listed ']' (value room) (rest.length + 1) rest).map fun r =>
                (.array 0 r.1 none, r.2)
      | '\x7b' :: rest =>
          match room with
          | 0 => none
          | room + 1 => do
              let (pairs, rest) ←
                listed '\x7d' (assignment (skipTrivia false) (value room)) (rest.length + 1) rest
              let node ← inlineTable pairs
              return (node, rest)
      | _ => (scalar cs).map fun r => (r.1.node, r.2)

/-- A text as far as it has been read: the tables so far and the header that is open. -/
structure Progress where
  root : Entries := []
  header : List String := []

/-- Reads a header behind its opening bracket, or behind both if it is a repeated one. -/
def header (repeated : Bool) (progress : Progress) (cs : List Char) :
    Option (Progress × List Char) := do
  let (path, rest) ← key cs
  let rest ← match rest, repeated with
    | ']' :: ']' :: rest, true => some rest
    | ']' :: rest, false => some rest
    | _, _ => none
  let name ← path.getLast?
  let opening := if repeated then Entries.openRow name else Entries.openTable name
  let root ← progress.root.update opening path.dropLast
  return ({ root, header := path }, rest)

def statement (progress : Progress) (cs : List Char) : Option (Progress × List Char) :=
  match cs with
  | '[' :: '[' :: rest => header true progress rest
  | '[' :: rest => header false progress rest
  | _ => do
      let ((path, node), rest) ← assignment (some ∘ skipGaps) (value nesting) cs
      let root ← progress.root.update (Entries.assign path node) progress.header
      return ({ progress with root }, rest)

/-- Reads the rest of a text; `fuel` bounds the number of headers and assignments. -/
def statements : Nat → Progress → List Char → Option Entries
  | 0, _, _ => none
  | fuel + 1, progress, cs => do
      match ← skipTrivia false cs with
      | [] => return progress.root
      | rest =>
          let (progress, rest) ← statement progress rest
          let rest ← skipLineEnd rest
          statements fuel progress rest

def dropByteOrderMark : List Char → List Char
  | '\ufeff' :: rest => rest
  | cs => cs

def read? (text : String) : Option Node :=
  let cs := dropByteOrderMark text.toList
  (statements (cs.length + 1) {} cs).map fun entries => (Item.table .header entries).node

end GioForge.Toml
