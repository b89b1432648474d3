import GioForge.Data.Table
import GioForge.Json.Printer

/-!
Handlers: for each action the statements to run when an element bound to it is used. Actions are
listed in the order of their first definition.
-/

namespace GioForge

abbrev Handlers := Table String String

/-- The handlers as data: an object from action to source text. -/
def Handlers.value (handlers : Handlers) : Value :=
  .object (handlers.entries.map fun entry => (entry.1, .text entry.2))

end GioForge
