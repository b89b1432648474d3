import GioForge.Document.Fault
import GioForge.Value

/-!
A document as far as its text could be followed, before anybody asks what it should contain. A
reader goes from left to right and the first problem counts, be it in the text or in the shape; so a
tree carries the problems of its text at the places where a reader meets them.

Some problems only matter if a value is used: a reader that passes over a value checks less of it.
`Break` therefore holds two faults for the one place where the text cannot be followed any further,
and strings and numbers may hold a fault although the text goes on behind them.
-/

namespace GioForge.Document

structure Break where
  /-- The fault for a reader that uses what stands there. -/
  used : Fault
  /-- The fault for a reader that passes over it. -/
  skipped : Fault
  deriving DecidableEq, Inhabited

def Break.plain (fault : Fault) : Break := ⟨fault, fault⟩

/-- A document tree. The first number of a node is its mark: how many bytes of the text have been
read once the first byte of the node has. -/
inductive Node where
  | null (mark : Nat)
  | bool (mark : Nat) (b : Bool)
  /-- A number, or the fault met by a reader that uses it. -/
  | number (mark : Nat) (n : Except Fault Number)
  /-- A number that is infinite or not a number. -/
  | unbounded (mark : Nat)
  /-- A string, or the fault met by a reader that uses it. -/
  | text (mark : Nat) (s : Except Fault String)
  /-- The items in front of the closing bracket or of the break. -/
  | array (mark : Nat) (items : List Node) (ending : Option Break)
  /-- The entries in front of the closing brace or of the break. -/
  | object (mark : Nat) (entries : List (Except Fault String × Node)) (ending : Option Break)
  /-- A value that cannot be read. -/
  | broken (mark : Nat) (place : Break)
  deriving Inhabited

namespace Node

def mark : Node → Nat
  | .null m | .bool m _ | .number m _ | .unbounded m | .text m _ | .array m _ _ | .object m _ _
  | .broken m _ => m

/-- The fault of a node that is not of the shape asked for. Scalars are read before they are
refused; containers are refused at once. -/
def refusal : Node → Fault
  | .number _ (.error fault) => fault
  | .text _ (.error fault) => fault
  | .broken _ b => b.used
  | _ => .mismatched

/-- Fails with the fault for a reader that passes over the node, if there was a break. -/
def finishSkipped : Option Break → Except Fault Unit
  | some b => .error b.skipped
  | none => .ok ()

def skip : Node → Except Fault Unit
  | .array _ _ ending => finishSkipped ending
  | .object _ _ ending => finishSkipped ending
  | .broken _ b => .error b.skipped
  | _ => .ok ()

mutual

def skipInside : Node → Except Fault Unit
  | .array _ items ending => do
      skipItems items
      finishSkipped ending
  | .object _ entries ending => do
      skipEntries entries
      finishSkipped ending
  | node => node.skip

def skipItems : List Node → Except Fault Unit
  | [] => .ok ()
  | item :: rest => do
      skipInside item
      skipItems rest

def skipEntries : List (Except Fault String × Node) → Except Fault Unit
  | [] => .ok ()
  | (_, node) :: rest => do
      skipInside node
      skipEntries rest

end

/-- Fails with the fault for a reader that uses the node, if there was a break. -/
def finish : Option Break → Except Fault Unit
  | some b => .error b.used
  | none => .ok ()

mutual

/-- The node as untyped data. Of entries with one key the last counts. `room` bounds how many
containers may still be opened inside each other, if that is bounded at all. -/
def value (room : Option Nat) : Node → Except Fault Value
  | .null _ => .ok .null
  | .bool _ b => .ok (.bool b)
  | .number _ n => n.map .number
  | .unbounded _ => .ok .null
  | .text _ s => s.map .text
  | .array mark items ending => do
      if room = some 0 then throw (.malformed mark)
      let values ← values (room.map (· - 1)) items
      finish ending
      return .array values
  | .object mark entries ending => do
      if room = some 0 then throw (.malformed mark)
      let fields ← fields (room.map (· - 1)) [] entries
      finish ending
      return .object fields
  | .broken _ b => .error b.used

def values (room : Option Nat) : List Node → Except Fault (List Value)
  | [] => .ok []
  | item :: rest => do
      let first ← value room item
      let others ← values room rest
      return first :: others

def fields (room : Option Nat) (done : Fields) :
    List (Except Fault String × Node) → Except Fault Fields
  | [] => .ok done
  | (key, node) :: rest => do
      let name ← key
      let v ← value room node
      fields room (done.insert name v) rest

end

end Node

end GioForge.Document
