import GioForge.Relation.Basic

/-!
Writing scripts as data. What is absent is left out; a response that is null is not absent.
-/

namespace GioForge.Relation

def Script.encode (s : Script) : Value :=
  .object ((s.rawAction.map fun v => ("action_id", v)).toList ++
    (s.response.map fun v => ("response", v)).toList)

def Graph.encode (g : Graph) : Value :=
  .object [("scripts", .array (g.scripts.map Script.encode))]

end GioForge.Relation
