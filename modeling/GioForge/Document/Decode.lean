import GioForge.Document.Node

/-!
Decoding document trees into typed data. Decoders go through a tree in the order of its text, so the
first problem they meet is the one that a reader from left to right meets first.
-/

namespace GioForge.Document

structure Reading where
  /-- How many containers may still be opened inside each other, if that is bounded. -/
  room : Option Nat
  /-- Whether a record written as a list may not have more items than fields. -/
  exactRows : Bool
  /-- Whether passing over a container means to look at everything inside it. -/
  looksInside : Bool
  deriving Inhabited

/-- The reading inside a container that starts at `mark`. -/
def Reading.enter (reading : Reading) (mark : Nat) : Except Fault Reading :=
  if reading.room = some 0 then .error (.malformed mark)
  else .ok { reading with room := reading.room.map (· - 1) }

def Reading.skip (reading : Reading) (node : Node) : Except Fault Unit :=
  if reading.looksInside then node.skipInside else node.skip

abbrev Decoder (α : Type) := Reading → Node → Except Fault α

namespace Decoder

variable {α σ : Type}

def text : Decoder String := fun _ node =>
  match node with
  | .text _ s => s
  | other => .error other.refusal

def flag : Decoder Bool := fun _ node =>
  match node with
  | .bool _ b => .ok b
  | other => .error other.refusal

def word : Decoder UInt32 := fun _ node =>
  match node with
  | .number _ (.ok (.natural n)) =>
      if n < UInt32.size then .ok (UInt32.ofNat n) else .error .mismatched
  | other => .error other.refusal

def any : Decoder Value := fun reading node =>
  node.value reading.room

/-- Null for nothing, or what `decoder` decodes. -/
def optional (decoder : Decoder α) : Decoder (Option α) := fun reading node =>
  match node with
  | .null _ => .ok none
  | other => (decoder reading other).map some

def list (decoder : Decoder α) : Decoder (List α) := fun reading node =>
  match node with
  | .array mark items ending => do
      let inner ← reading.enter mark
      let values ← items.mapM (decoder inner)
      Node.finish ending
      return values
  | other => .error other.refusal

/-- A field of a record `σ` in the making: its name, and how its value goes into the record. -/
structure Slot (σ : Type) where
  name : String
  fill : Reading → Node → σ → Except Fault σ

def slot (name : String) (decoder : Decoder α) (set : α → σ → σ) : Slot σ :=
  ⟨name, fun reading node record => (decoder reading node).map (set · record)⟩

abbrev Other (σ : Type) := Reading → String → Node → σ → Except Fault σ

def ignore : Other σ := fun reading _ node record => do
  reading.skip node
  return record

def refuse : Other σ := fun _ _ _ _ => .error .mismatched

/-- Fills a record from the entries of an object. A field may be given once; it is refused the
second time as soon as its key has been read. -/
def fillEntries (reading : Reading) (slots : List (Slot σ)) (other : Other σ) (seen : List String)
    (record : σ) : List (Except Fault String × Node) → Except Fault σ
  | [] => .ok record
  | (key, node) :: rest => do
      let name ← key
      match slots.find? fun s => s.name = name with
      | some s =>
          if seen.contains name then throw .mismatched
          let record ← s.fill reading node record
          fillEntries reading slots other (name :: seen) record rest
      | none =>
          let record ← other reading name node record
          fillEntries reading slots other seen record rest

/-- Fills a record from a list of its fields in order. Fields at the end may be missing. -/
def fillItems (reading : Reading) (record : σ) : List (Slot σ) → List Node → Except Fault σ
  | _, [] => .ok record
  | [], item :: _ => if reading.exactRows then .error (.malformed item.mark) else .ok record
  | s :: slots, item :: rest => do
      let record ← s.fill reading item record
      fillItems reading record slots rest

/-- A record that must be written as an object; `start` holds what missing fields are. -/
def object (start : σ) (slots : List (Slot σ)) (other : Other σ) : Decoder σ :=
  fun reading node =>
    match node with
    | .object mark entries ending => do
        let inner ← reading.enter mark
        let record ← fillEntries inner slots other [] start entries
        Node.finish ending
        return record
    | node => .error node.refusal

def record (start : σ) (slots : List (Slot σ)) (other : Other σ) : Decoder σ :=
  fun reading node =>
    match node with
    | .array mark items ending => do
        let inner ← reading.enter mark
        let record ← fillItems inner start slots items
        Node.finish ending
        return record
    | node => object start slots other reading node

end Decoder

end GioForge.Document
