import GioForge.Component.Basic
import GioForge.Component.Error
import GioForge.Go.Literal
import GioForge.Ui.Basic

/-!
The components that are known from the start: texts, headings, buttons and input fields. The
variable of a component is named after its place in the document, so no two components share one.
-/

namespace GioForge

abbrev Translator := Nat → Ui.Element → Except CompileError Component

namespace Component

def materialPackage : String := "gioui.org/widget/material"

def widgetPackage : String := "gioui.org/widget"

def optionalValue (index : Nat) (kind : String) (e : Ui.Element) :
    Except CompileError (Option String) :=
  match e.value? with
  | none => .ok none
  | some v =>
      match v.text? with
      | some s => .ok (some s)
      | none => .error (.malformed index kind "value" FieldFault.notText.reason)

def requiredValue (index : Nat) (kind : String) (e : Ui.Element) : Except CompileError String := do
  match ← optionalValue index kind e with
  | some s => return s
  | none => throw (.malformed index kind "value" FieldFault.missing.reason)

/-- A field of an element, which has to be a natural number if it is there. -/
def optionalNatural (index : Nat) (kind : String) (e : Ui.Element) (field : String) :
    Except CompileError (Option Nat) :=
  match e.field? field with
  | none => .ok none
  | some v =>
      match v.natural? with
      | some n => .ok (some n)
      | none => .error (.malformed index kind field FieldFault.notNatural.reason)

def layOut (widget : String) : List Code.Fragment :=
  [.line ("return material." ++ widget ++ ".Layout(gtx)")]

def defaultSize : Nat := 16

def text : Translator := fun index e => do
  let kind := "text"
  let value ← requiredValue index kind e
  let size ← match ← optionalNatural index kind e "size" with
    | none => pure defaultSize
    | some 0 => throw (.malformed index kind "size" FieldFault.zero.reason)
    | some size => pure size
  return {
    kind
    imports := (Code.Imports.empty.add materialPackage "Label").add "gioui.org/unit" "Sp"
    body := layOut ("Label(th, unit.Sp(" ++ Text.decimalText size ++ "), " ++ Go.quote value ++ ")")
  }

def defaultLevel : Nat := 4

def heading : Translator := fun index e => do
  let kind := "heading"
  let value ← requiredValue index kind e
  let level ← match ← optionalNatural index kind e "level" with
    | none => pure defaultLevel
    | some level =>
        if 1 ≤ level && level ≤ 6 then pure level
        else throw (.malformed index kind "level" FieldFault.notLevel.reason)
  let style := "H" ++ Text.decimalText level
  return {
    kind
    imports := Code.Imports.empty.add materialPackage style
    body := layOut (style ++ "(th, " ++ Go.quote value ++ ")")
  }

/-- A button; it can be used. -/
def button : Translator := fun index e => do
  let kind := "button"
  let value ← requiredValue index kind e
  let name := "button" ++ Text.decimalText index
  return {
    kind
    action := e.action?
    signal := some (name ++ ".Clicked(gtx)")
    state := some ⟨name, "widget.Clickable"⟩
    imports :=
      (Code.Imports.empty.add widgetPackage "Clickable").add materialPackage "Button"
    body := layOut ("Button(th, &" ++ name ++ ", " ++ Go.quote value ++ ")")
  }

/-- A field for text; the value of the element is what an empty field shows. -/
def input : Translator := fun index e => do
  let kind := "input"
  let hint ← optionalValue index kind e
  let name := "input" ++ Text.decimalText index
  return {
    kind
    state := some ⟨name, "widget.Editor"⟩
    imports := (Code.Imports.empty.add widgetPackage "Editor").add materialPackage "Editor"
    body := layOut ("Editor(th, &" ++ name ++ ", " ++ Go.quote (hint.getD "") ++ ")")
  }

end Component

abbrev Translators := Table String Translator

namespace Translators

def builtin : Translators :=
  Table.ofList [("text", Component.text), ("heading", Component.heading),
    ("button", Component.button), ("input", Component.input)]

/-- The component of the element at an index, by the translator for its kind. -/
def instantiate (translators : Translators) (index : Nat) (e : Ui.Element) :
    Except CompileError Component :=
  match e.kind? with
  | none => .error (.unprocessable index CompileError.untaggedReason)
  | some kind =>
      match translators.get? kind with
      | none => .error (.unknownKind index kind translators.keys)
      | some translator => translator index e

end Translators

end GioForge
