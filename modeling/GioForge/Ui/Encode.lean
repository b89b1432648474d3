import GioForge.Ui.Basic

/-!
Writing a user interface as data. What is absent is left out, a size constraint keeps its form, and
the further fields of an element follow the ones that every element may have.
-/

namespace GioForge.Ui

def wordValue (n : UInt32) : Value :=
  .number (.natural n.toNat)

def optionalEntry {α : Type} (name : String) (encode : α → Value) (v : Option α) :
    List (String × Value) :=
  (v.map fun x => (name, encode x)).toList

def Size.encode : Size → Value
  | .square side => wordValue side
  | .pair width height => .array [wordValue width, wordValue height]
  | .named width height => .object [("width", wordValue width), ("height", wordValue height)]

def WindowSpec.encode (w : WindowSpec) : Value :=
  .object (optionalEntry "title" .text w.title ++ optionalEntry "width" wordValue w.width ++
    optionalEntry "height" wordValue w.height ++ optionalEntry "min_size" Size.encode w.minSize ++
    optionalEntry "max_size" Size.encode w.maxSize ++
    optionalEntry "fullscreen" .bool w.fullscreen ++ optionalEntry "icon" .text w.icon)

def Element.encode (e : Element) : Value :=
  .object (optionalEntry "kind" .text e.tag ++ optionalEntry "type" .text e.legacyTag ++
    optionalEntry "value" id e.rawValue ++ optionalEntry "action_id" id e.rawAction ++ e.fields)

def Graph.encode (g : Graph) : Value :=
  .object (("page", .text g.page) :: (optionalEntry "window" WindowSpec.encode g.window ++
    [("elements", .array (g.elements.map Element.encode))]))

end GioForge.Ui
