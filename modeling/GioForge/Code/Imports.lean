import GioForge.Data.OrderedSet
import GioForge.Data.Table

/-!
The packages a program imports and the symbols it uses from each. Parts of a program declare their
imports on their own; joining them drops repetitions and keeps the order in which packages and
symbols were first seen, and `sorted` gives the order in which an import block lists them.
-/

namespace GioForge.Code

@[ext]
structure Imports where
  /-- Package paths with symbols in first-seen order. -/
  packages : Table String (OrderedSet String)

namespace Imports

def empty : Imports := ⟨.empty⟩

instance : Inhabited Imports := ⟨empty⟩

/-- The symbols used from a package, in first-seen order; none for a package that is not there. -/
def symbols (imports : Imports) (package : String) : OrderedSet String :=
  (imports.packages.get? package).getD .empty

def hasPackage (imports : Imports) (package : String) : Bool :=
  imports.packages.contains package

def hasSymbol (imports : Imports) (package symbol : String) : Bool :=
  (imports.symbols package).contains symbol

def addPackage (imports : Imports) (package : String) : Imports :=
  ⟨imports.packages.insert package (imports.symbols package)⟩

def add (imports : Imports) (package symbol : String) : Imports :=
  ⟨imports.packages.insert package ((imports.symbols package).insert symbol)⟩

def addAll (imports : Imports) (package : String) (symbols : List String) : Imports :=
  symbols.foldl (fun all symbol => all.add package symbol) imports

/-- Everything in the first set, then what the second adds to it. -/
def merge (imports other : Imports) : Imports :=
  other.packages.entries.foldl
    (fun all entry => (all.addPackage entry.1).addAll entry.1 entry.2.toList) imports

/-- The packages in increasing order of their paths, each with its symbols in first-seen order. -/
def sorted (imports : Imports) : List (String × OrderedSet String) :=
  imports.packages.entries.mergeSort fun a b => decide (a.1 ≤ b.1)

def size (imports : Imports) : Nat :=
  imports.packages.size

def symbolCount (imports : Imports) : Nat :=
  (imports.packages.entries.flatMap fun entry => entry.2.toList).length

def isEmpty (imports : Imports) : Bool :=
  imports.packages.isEmpty

/-- Whether two sets have the same packages with the same symbols, in whatever order. -/
def same (a b : Imports) : Bool :=
  a.size = b.size && a.packages.entries.all fun entry =>
    b.hasPackage entry.1 && (b.symbols entry.1).size = entry.2.size &&
      entry.2.toList.all fun symbol => b.hasSymbol entry.1 symbol

end Imports

end GioForge.Code
