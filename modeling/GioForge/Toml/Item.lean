import GioForge.Document.Node

/-!
The tree of a TOML text while it is being put together. A table may be spread over a text, and how
it came to be decides what may still be added to it, so the tree tells apart tables with a header of
their own, tables that only lie on the way to one, and tables made by dotted keys.
-/

namespace GioForge.Toml

open Document (Node)

inductive Origin where
  /-- By a header of its own. -/
  | header
  /-- On the way to the table of a longer header. -/
  | passage
  /-- By a key with dots. -/
  | dotted
  deriving DecidableEq, Inhabited

inductive Item where
  /-- A value that is complete. -/
  | value (node : Node)
  /-- A table. -/
  | table (origin : Origin) (entries : List (String × Item))
  /-- The tables with one repeated header, last first. -/
  | tables (rows : List (List (String × Item)))
  deriving Inhabited

abbrev Entries := List (String × Item)

namespace Entries

/-- The entries with the item under `key` replaced, in place. -/
def replace (key : String) (item : Item) (entries : Entries) : Entries :=
  entries.map fun entry => if entry.1 = key then (key, item) else entry

def add (entries : Entries) (key : String) (item : Item) : Entries :=
  entries ++ [(key, item)]

/-- Changes the table at a path of headers, making the tables on the way. A path leads into the
latest of tables with a repeated header, and never into a complete value. -/
def update (change : Entries → Option Entries) : List String → Entries → Option Entries
  | [], entries => change entries
  | name :: path, entries =>
      match entries.lookup name with
      | none => (update change path []).map fun inner => entries.add name (.table .passage inner)
      | some (.table origin inner) =>
          (update change path inner).map fun inner => entries.replace name (.table origin inner)
      | some (.tables (row :: rows)) =>
          (update change path row).map fun row => entries.replace name (.tables (row :: rows))
      | some (.tables []) => none
      | some (.value _) => none

/-- Opens the table of a header; a table that only lay on the way to another may still be opened. -/
def openTable (name : String) (entries : Entries) : Option Entries :=
  match entries.lookup name with
  | none => some (entries.add name (.table .header []))
  | some (.table .passage inner) => some (entries.replace name (.table .header inner))
  | some _ => none

def openRow (name : String) (entries : Entries) : Option Entries :=
  match entries.lookup name with
  | none => some (entries.add name (.tables [[]]))
  | some (.tables rows) => some (entries.replace name (.tables ([] :: rows)))
  | some _ => none

/-- Puts a value under a key, of which `name` is the last part. The parts before it lead through
tables without a header, and the last table on the way was made by dotted keys. -/
def put (name : String) (node : Node) (inDotted : Bool) : List String → Entries → Option Entries
  | [], entries =>
      match entries.lookup name with
      | none => if inDotted then some (entries.add name (.value node)) else none
      | some _ => none
  | part :: path, entries =>
      match entries.lookup part with
      | none =>
          (put name node true path []).map fun inner => entries.add part (.table .dotted inner)
      | some (.table .header _) => none
      | some (.table origin inner) =>
          (put name node (origin = .dotted) path inner).map fun inner =>
            entries.replace part (.table origin inner)
      | some (.tables (row :: rows)) =>
          (put name node false path row).map fun row => entries.replace part (.tables (row :: rows))
      | some (.tables []) => none
      | some (.value _) => none

def assign (path : List String) (node : Node) (entries : Entries) : Option Entries :=
  match path.getLast? with
  | some name => put name node true path.dropLast entries
  | none => none

end Entries

mutual

def Item.node : Item → Node
  | .value node => node
  | .table _ entries => .object 0 (Item.nodes entries) none
  | .tables rows => .array 0 (Item.rowNodes rows).reverse none

def Item.nodes : List (String × Item) → List (Except Document.Fault String × Node)
  | [] => []
  | (key, item) :: rest => (.ok key, item.node) :: Item.nodes rest

def Item.rowNodes : List (List (String × Item)) → List Node
  | [] => []
  | row :: rest => .object 0 (Item.nodes row) none :: Item.rowNodes rest

end

end GioForge.Toml
