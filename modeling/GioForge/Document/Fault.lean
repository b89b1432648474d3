/-!
What can be wrong with the text of a document, and where. A position is a count of bytes from the
start of the text; people are shown a line and a column, and `byteOffset?` turns these back into a
place in the text.
-/

namespace GioForge.Document

inductive Fault where
  /-- The text does not follow its format; found after reading so many bytes. -/
  | malformed (index : Nat)
  /-- The text ends too early; it has so many bytes. -/
  | truncated (index : Nat)
  /-- The text follows its format and does not have the shape that was asked for. -/
  | mismatched
  deriving DecidableEq, Inhabited

def lineFeed : UInt8 := 10

def lineOf (source : List UInt8) (index : Nat) : Nat :=
  1 + (source.take index).count lineFeed

/-- The column of a position: how many bytes of its line have been read. -/
def columnOf (source : List UInt8) (index : Nat) : Nat :=
  ((source.take index).reverse.takeWhile (· != lineFeed)).length

/-- The lines of a text, each with the byte that ends it. -/
def wholeLines : List UInt8 → List (List UInt8)
  | [] => []
  | b :: rest =>
      if b = lineFeed then [b] :: wholeLines rest
      else
        match wholeLines rest with
        | [] => [[b]]
        | first :: others => (b :: first) :: others

/-- The start of a line that is counted from one, or the end of the text if it has fewer lines. -/
def lineStart (source : List UInt8) (line : Nat) : Nat :=
  ((wholeLines source).take (line - 1)).flatten.length

/-- The place in the text of a line and a column that are counted from one, kept within the text.
There is no line zero. The sum is one of machine words as a release build takes it: past the
largest word it goes on from zero. A build that checks its sums stops there instead. -/
def byteOffset? (source : List UInt8) (line column : UInt64) : Option Nat :=
  if line = 0 then none
  else
    let place := UInt64.ofNat (lineStart source line.toNat) + UInt64.ofNat (column.toNat - 1)
    some (min place.toNat source.length)

def shownOffset? (source : List UInt8) (index : Nat) : Option Nat :=
  byteOffset? source (UInt64.ofNat (lineOf source index)) (UInt64.ofNat (columnOf source index))

end GioForge.Document
