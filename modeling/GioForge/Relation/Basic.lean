import GioForge.Value

/-!
What a user interface does: scripts that bind an action to a response, in the order of the document.
-/

namespace GioForge.Relation

/-- A script. Action and response are kept as they were written; making sense of them is a later
step. -/
structure Script where
  rawAction : Option Value := none
  response : Option Value := none
  deriving Inhabited

/-- The action of the script, if it is named by a text that is not empty. -/
def Script.action? (s : Script) : Option String :=
  (s.rawAction.bind Value.text?).filter fun id => !id.isEmpty

def Script.of (action : String) (response : Value) : Script :=
  { rawAction := some (.text action), response := some response }

structure Graph where
  scripts : List Script := []
  deriving Inhabited

end GioForge.Relation
