import GioForge.Document.Decode
import GioForge.Relation.Basic

/-!
Reading scripts from a document tree. The whole and each script may be written as lists of their
fields.
-/

namespace GioForge.Relation

open Document Decoder

def Script.slots : List (Slot Script) :=
  [slot "action_id" (optional any) fun v s => { s with rawAction := v },
    slot "response" (optional any) fun v s => { s with response := v }]

def Script.decoder : Decoder Script :=
  Decoder.record {} Script.slots Decoder.ignore

def Graph.slots : List (Slot Graph) :=
  [slot "scripts" (list Script.decoder) fun v g => { g with scripts := v }]

def Graph.decoder : Decoder Graph :=
  Decoder.record {} Graph.slots Decoder.ignore

end GioForge.Relation
