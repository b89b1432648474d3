import GioForge.Code.Fragment

/-!
Writing fragments out. A `Writer` is the text written so far together with the level at which the
next line starts.
-/

namespace GioForge.Code

inductive Indent where
  /-- A tab. -/
  | tab
  /-- A run of blanks of a nominal width. -/
  | blanks (width : UInt8)
  deriving DecidableEq, Inhabited

/-- The text of one step. Widths of two and eight are honoured; any other is four blanks. -/
def Indent.unit : Indent → String
  | .tab => "\t"
  | .blanks width => if width = 2 then "  " else if width = 8 then "        " else "    "

structure Writer where
  /-- What one level of indentation looks like. -/
  indent : Indent := .tab
  /-- The level of the next line. -/
  level : Nat := 0
  /-- What has been written. -/
  text : String := ""
  deriving Inhabited

namespace Writer

def margin (w : Writer) : String :=
  String.join (List.replicate w.level w.indent.unit)

def blank (w : Writer) : Writer :=
  { w with text := w.text ++ "\n" }

/-- Writes one line at the current level; an empty line gets no indentation. -/
def line (w : Writer) (text : String) : Writer :=
  if text.isEmpty then w.blank else { w with text := w.text ++ w.margin ++ text ++ "\n" }

def deeper (w : Writer) : Writer :=
  { w with level := w.level + 1 }

/-- Moves one level out; the outermost level stays. -/
def shallower (w : Writer) : Writer :=
  { w with level := w.level - 1 }

mutual

def emit (w : Writer) : Fragment → Writer
  | .line text => w.line text
  | .blank => w.blank
  | .block header body close =>
      let inner := ((w.line header).deeper.emitAll body).shallower
      match close with
      | some text => inner.line text
      | none => inner
  | .indented body => (w.deeper.emitAll body).shallower
  | .sequence body => w.emitAll body

def emitAll (w : Writer) : List Fragment → Writer
  | [] => w
  | fragment :: rest => (w.emit fragment).emitAll rest

end

/-- Writing two lists is writing their concatenation. -/
theorem emitAll_append (w : Writer) (first second : List Fragment) :
    w.emitAll (first ++ second) = (w.emitAll first).emitAll second := by
  induction first generalizing w with
  | nil => rfl
  | cons fragment rest ih => exact ih (w.emit fragment)

end Writer

def render (fragments : List Fragment) : String :=
  (({} : Writer).emitAll fragments).text

end GioForge.Code
