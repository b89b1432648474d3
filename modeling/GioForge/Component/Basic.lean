import GioForge.Code.Fragment
import GioForge.Code.Imports
import GioForge.Handlers

/-!
Components: what an element of a user interface becomes in the program. A component is translated
once from its element; the program then needs its data and what it makes of the handlers.
-/

namespace GioForge

/-- A variable of the program that keeps its value between frames. -/
structure StateVariable where
  name : String
  type : String
  deriving DecidableEq, Inhabited

def StateVariable.declaration (v : StateVariable) : String :=
  "var " ++ v.name ++ " " ++ v.type

/-- The handler that a table has for an action, if there are both. -/
def Component.bound? (action : Option String) (handlers : Option Handlers) : Option String := do
  let table ← handlers
  let action ← action
  table.get? action

/-- Statements with a handler in front, which runs whenever the signal is true. Without a handler
or a signal there is nothing to add. -/
def Component.reacting (handler signal : Option String) (body : List Code.Fragment) :
    List Code.Fragment :=
  match handler, signal with
  | some text, some signal =>
      .block ("if " ++ signal ++ " \x7b") (Code.Fragment.ofText text) (some "\x7d") :: body
  | _, _ => body

/-- An element as part of the program. What it makes of handlers is its own affair; the functions
that are filled in are those of the components that are known from the start. -/
structure Component where
  /-- The kind of component, as it is named to people. -/
  kind : String
  /-- The action the component is bound to. -/
  action : Option String := none
  /-- The expression that is true in a frame in which the component was used; none if it cannot be
  used. -/
  signal : Option String := none
  state : Option StateVariable := none
  /-- What the statements of the component import. -/
  imports : Code.Imports := .empty
  /-- The statements that lay the component out, without any reaction to its use. -/
  body : List Code.Fragment
  /-- The handler the component is bound to, if there is one. -/
  handler? : Option Handlers → Option String := Component.bound? action
  /-- The statements of the component. -/
  render : Option Handlers → List Code.Fragment := fun handlers =>
    Component.reacting (handler? handlers) signal body
  deriving Inhabited

/-- The component reacts the usual way: the handler of its action runs first whenever the component
was used. -/
structure Component.Standard (c : Component) : Prop where
  handler?_eq (handlers : Option Handlers) : c.handler? handlers = bound? c.action handlers
  render_eq (handlers : Option Handlers) :
    c.render handlers = reacting (c.handler? handlers) c.signal c.body

end GioForge
