import GioForge.Text.Blank
import GioForge.Value

/-!
The description of a user interface: one page with a window and the elements it shows, in order.
-/

namespace GioForge.Ui

/-- A size constraint in device-independent pixels, in one of the forms it may be written in. -/
inductive Size where
  /-- The same width and height. -/
  | square (side : UInt32)
  /-- Width and height as a pair. -/
  | pair (width height : UInt32)
  /-- Width and height by name. -/
  | named (width height : UInt32)
  deriving DecidableEq, Inhabited

def Size.dimensions : Size → UInt32 × UInt32
  | .square side => (side, side)
  | .pair width height => (width, height)
  | .named width height => (width, height)

structure WindowSpec where
  title : Option String := none
  width : Option UInt32 := none
  height : Option UInt32 := none
  minSize : Option Size := none
  maxSize : Option Size := none
  fullscreen : Option Bool := none
  icon : Option String := none
  deriving DecidableEq, Inhabited

/-- Something to show or to interact with. `tag` selects how it is translated; `legacyTag` does so
where `tag` says nothing. The value and the action are kept as they were written: a value of the
wrong type is for the translator to report, and such an action counts as none. -/
structure Element where
  tag : Option String := none
  legacyTag : Option String := none
  rawValue : Option Value := none
  rawAction : Option Value := none
  /-- Everything else, for the translator of the element. -/
  fields : Fields := []
  deriving Inhabited

namespace Element

def usableTag (tag : Option String) : Option String :=
  tag.filter fun t => !Text.isBlankText t

def kind? (e : Element) : Option String :=
  usableTag e.tag <|> usableTag e.legacyTag

/-- The value, if there is one other than null. -/
def value? (e : Element) : Option Value :=
  e.rawValue.filter fun v => !v.isNull

/-- The action the element is bound to, if it is named by a text that is not empty. -/
def action? (e : Element) : Option String :=
  (e.rawAction.bind Value.text?).filter fun id => !id.isEmpty

/-- A further field, if there is one other than null. -/
def field? (e : Element) (name : String) : Option Value :=
  (e.fields.get? name).filter fun v => !v.isNull

def ofKind (kind : String) : Element :=
  { tag := some kind }

def withValue (e : Element) (value : String) : Element :=
  { e with rawValue := some (.text value) }

def withAction (e : Element) (action : String) : Element :=
  { e with rawAction := some (.text action) }

def withField (e : Element) (name : String) (value : Value) : Element :=
  { e with fields := e.fields.insert name value }

end Element

def defaultPage : String := "main"

structure Graph where
  page : String := defaultPage
  window : Option WindowSpec := none
  /-- The elements in the order in which they are shown. -/
  elements : List Element := []
  deriving Inhabited

end GioForge.Ui
