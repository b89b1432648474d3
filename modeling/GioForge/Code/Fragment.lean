import GioForge.Text.Blank
import GioForge.Text.Lines

/-!
Pieces of source code. A fragment holds lines and how they nest, never absolute indentation, so the
same piece can be placed at any depth; the indentation is decided when the whole tree is written.
-/

namespace GioForge.Code

inductive Fragment where
  /-- One line. -/
  | line (text : String)
  /-- An empty line. -/
  | blank
  /-- A header, a body one level deeper, and a closing line if there is one. -/
  | block (header : String) (body : List Fragment) (close : Option String)
  /-- Fragments one level deeper. -/
  | indented (body : List Fragment)
  /-- Fragments at the level of the whole. -/
  | sequence (body : List Fragment)
  deriving Inhabited

namespace Fragment

def isIndent (c : Char) : Bool :=
  c == ' ' || c == '\t'

/-- The lines between the first and the last that are not empty, both included. -/
def dropOuterEmpty (lines : List (List Char)) : List (List Char) :=
  ((lines.dropWhile List.isEmpty).reverse.dropWhile List.isEmpty).reverse

/-- The least number of indenting characters before a line that is not empty. -/
def sharedIndent (lines : List (List Char)) : Nat :=
  (((lines.filter fun l => !l.isEmpty).map fun l => (l.takeWhile isIndent).length).min?).getD 0

/-- Free text as fragments: trailing blanks go, leading and trailing empty lines go, and every line
loses as many characters as the least indented line has before its text. -/
def ofText (text : String) : List Fragment :=
  let lines := dropOuterEmpty ((Text.lines text.toList).map Text.trimEnd)
  let depth := sharedIndent lines
  lines.map fun l => if l.isEmpty then .blank else .line (String.ofList (l.drop depth))

mutual

/-- The line a fragment ends with, looked for from its end; a block without a closing line and
without a line in its body has none. -/
def lastLine? : Fragment → Option String
  | .line text => some text
  | .blank => none
  | .block _ body close =>
      match close with
      | some text => some text
      | none => lastLineOf? body
  | .indented body => lastLineOf? body
  | .sequence body => lastLineOf? body

def lastLineOf? : List Fragment → Option String
  | [] => none
  | fragment :: rest =>
      match lastLineOf? rest with
      | some text => some text
      | none => lastLine? fragment

end

end Fragment

end GioForge.Code
