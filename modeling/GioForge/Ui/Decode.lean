import GioForge.Document.Decode
import GioForge.Ui.Basic

/-!
Reading a user interface from a document tree. The whole and its window may be written as lists of
their fields; an element is always an object, since it may have fields of its own.
-/

namespace GioForge.Ui

open Document Decoder

/-- The two numbers named `width` and `height` among entries, each of which may be given once. -/
def namedSize (reading : Reading) (found : Option UInt32 × Option UInt32) :
    List (Except Fault String × Node) → Except Fault Size
  | [] =>
      match found with
      | (some width, some height) => .ok (.named width height)
      | _ => .error .mismatched
  | (key, node) :: rest => do
      let name ← key
      if name = "width" then
        if found.1.isSome then throw .mismatched
        namedSize reading (some (← word reading node), found.2) rest
      else if name = "height" then
        if found.2.isSome then throw .mismatched
        namedSize reading (found.1, some (← word reading node)) rest
      else namedSize reading found rest

/-- A size constraint: a number, a list of two, or an object that names both. It is read as a whole
before its form is looked at. -/
def Size.decoder : Decoder Size := fun reading node => do
  let _ ← any reading node
  match node with
  | .number _ _ => return .square (← word reading node)
  | .array _ [width, height] _ => return .pair (← word reading width) (← word reading height)
  | .object _ entries _ => namedSize reading (none, none) entries
  | _ => throw .mismatched

def WindowSpec.slots : List (Slot WindowSpec) :=
  [slot "title" (optional text) fun v w => { w with title := v },
    slot "width" (optional word) fun v w => { w with width := v },
    slot "height" (optional word) fun v w => { w with height := v },
    slot "min_size" (optional Size.decoder) fun v w => { w with minSize := v },
    slot "max_size" (optional Size.decoder) fun v w => { w with maxSize := v },
    slot "fullscreen" (optional flag) fun v w => { w with fullscreen := v },
    slot "icon" (optional text) fun v w => { w with icon := v }]

def WindowSpec.decoder : Decoder WindowSpec :=
  Decoder.record {} WindowSpec.slots Decoder.ignore

def Element.slots : List (Slot Element) :=
  [slot "kind" (optional text) fun v e => { e with tag := v },
    slot "type" (optional text) fun v e => { e with legacyTag := v },
    slot "value" (optional any) fun v e => { e with rawValue := v },
    slot "action_id" (optional any) fun v e => { e with rawAction := v }]

/-- An element; entries that are no field of every element are kept, the last of a name. -/
def Element.decoder : Decoder Element :=
  Decoder.object {} Element.slots fun reading name node e => do
    return e.withField name (← any reading node)

def Graph.slots : List (Slot Graph) :=
  [slot "page" text fun v g => { g with page := v },
    slot "window" (optional WindowSpec.decoder) fun v g => { g with window := v },
    slot "elements" (list Element.decoder) fun v g => { g with elements := v }]

def Graph.decoder : Decoder Graph :=
  Decoder.record {} Graph.slots Decoder.ignore

end GioForge.Ui
