import GioForge.Component.Builtin
import Mathlib.Data.List.Forall2
import Mathlib.Tactic.Common

/-!
What the built-in translators make of elements. A widget is an element that was
found to be in order, with the data that its component is made from; every component
that the built-in translators give is the component of a widget that the element
describes. Later results about components are by cases on the widget and do not look
into the translators again.
-/

namespace GioForge

theorem ok_of_bind {ε α β : Type} {first : Except ε α} {next : α → Except ε β} {result : β}
    (h : first >>= next = .ok result) :
    ∃ value, first = .ok value ∧ next value = .ok result := by
  cases first with
  | error e => cases h
  | ok value => exact ⟨value, rfl, h⟩

theorem toOption_eq_some_iff {ε α : Type} {result : Except ε α} {value : α} :
    result.toOption = some value ↔ result = .ok value := by
  cases result <;> simp [Except.toOption]

theorem Text.decimalText_injective : Function.Injective Text.decimalText := by
  intro m n h
  have hdigits : Nat.toDigits 10 m = Nat.toDigits 10 n := String.ofList_injective h
  calc
    m = Nat.ofDigitChars 10 (Nat.toDigits 10 m) 0 := Nat.ofDigitChars_ten_toDigits.symm
    _ = Nat.ofDigitChars 10 (Nat.toDigits 10 n) 0 := by rw [hdigits]
    _ = n := Nat.ofDigitChars_ten_toDigits

namespace Ui.Element

def text? (e : Element) : Option String :=
  e.value?.bind Value.text?

def natural? (e : Element) (field : String) : Option Nat :=
  (e.field? field).bind Value.natural?

end Ui.Element

/-- An element of one of the built-in kinds. -/
inductive Widget where
  | label (size : Nat) (text : String)
  | heading (level : Nat) (text : String)
  | button (index : Nat) (action : Option String) (text : String)
  | editor (index : Nat) (hint : String)

namespace Widget

open Component

def buttonName (index : Nat) : String :=
  "button" ++ Text.decimalText index

def editorName (index : Nat) : String :=
  "input" ++ Text.decimalText index

def call : Widget → String
  | .label size text =>
      "Label(th, unit.Sp(" ++ Text.decimalText size ++ "), " ++ Go.quote text ++ ")"
  | .heading level text => "H" ++ Text.decimalText level ++ "(th, " ++ Go.quote text ++ ")"
  | .button index _ text => "Button(th, &" ++ buttonName index ++ ", " ++ Go.quote text ++ ")"
  | .editor index hint => "Editor(th, &" ++ editorName index ++ ", " ++ Go.quote hint ++ ")"

def component : Widget → Component
  | .label size text =>
      { kind := "text"
        imports := (Code.Imports.empty.add materialPackage "Label").add "gioui.org/unit" "Sp"
        body := layOut (label size text).call }
  | .heading level text =>
      { kind := "heading"
        imports := Code.Imports.empty.add materialPackage ("H" ++ Text.decimalText level)
        body := layOut (heading level text).call }
  | .button index action text =>
      { kind := "button"
        action
        signal := some (buttonName index ++ ".Clicked(gtx)")
        state := some ⟨buttonName index, "widget.Clickable"⟩
        imports := (Code.Imports.empty.add widgetPackage "Clickable").add materialPackage "Button"
        body := layOut (button index action text).call }
  | .editor index hint =>
      { kind := "input"
        state := some ⟨editorName index, "widget.Editor"⟩
        imports := (Code.Imports.empty.add widgetPackage "Editor").add materialPackage "Editor"
        body := layOut (editor index hint).call }

/-- A widget that can be used runs its handler and then lays itself out, and nothing else. -/
theorem standard_component (w : Widget) : w.component.Standard := by
  cases w <;> exact ⟨fun _ => rfl, fun _ => rfl⟩

/-- The widget that the element at an index describes. -/
inductive Describes (index : Nat) (e : Ui.Element) : Widget → Prop where
  | label {text : String} (hkind : e.kind? = some "text") (htext : e.text? = some text) :
      Describes index e (.label ((e.natural? "size").getD defaultSize) text)
  | heading {text : String} (hkind : e.kind? = some "heading") (htext : e.text? = some text) :
      Describes index e (.heading ((e.natural? "level").getD defaultLevel) text)
  | button {text : String} (hkind : e.kind? = some "button") (htext : e.text? = some text) :
      Describes index e (.button index e.action? text)
  | editor (hkind : e.kind? = some "input") :
      Describes index e (.editor index (e.text?.getD ""))

end Widget

namespace Component

/-- If the value could be read it is the text of the element. -/
theorem optionalValue_ok {index : Nat} {kind : String} {e : Ui.Element} {value : Option String}
    (h : optionalValue index kind e = .ok value) : e.text? = value := by
  unfold optionalValue at h
  unfold Ui.Element.text?
  cases hvalue : e.value? with
  | none =>
      simp only [hvalue] at h
      exact Except.ok.inj h
  | some v =>
      simp only [hvalue] at h
      cases htext : v.text? with
      | none => simp [htext] at h
      | some s => simpa [htext] using h

theorem requiredValue_ok {index : Nat} {kind : String} {e : Ui.Element} {value : String}
    (h : requiredValue index kind e = .ok value) : e.text? = some value := by
  obtain ⟨found, hfound, h⟩ := ok_of_bind h
  cases found with
  | none => cases h
  | some s =>
      obtain rfl : s = value := Except.ok.inj h
      exact optionalValue_ok hfound

theorem optionalNatural_ok {index : Nat} {kind field : String} {e : Ui.Element}
    {number : Option Nat} (h : optionalNatural index kind e field = .ok number) :
    e.natural? field = number := by
  unfold optionalNatural at h
  unfold Ui.Element.natural?
  cases hfield : e.field? field with
  | none =>
      simp only [hfield] at h
      exact Except.ok.inj h
  | some v =>
      simp only [hfield] at h
      cases hnumber : v.natural? with
      | none => simp [hnumber] at h
      | some n => simpa [hnumber] using h

theorem text_ok {index : Nat} {e : Ui.Element} {c : Component} (h : text index e = .ok c) :
    ∃ value, e.text? = some value ∧
      c = (Widget.label ((e.natural? "size").getD defaultSize) value).component := by
  obtain ⟨value, hvalue, h⟩ := ok_of_bind h
  obtain ⟨size, hsize, h⟩ := ok_of_bind h
  refine ⟨value, requiredValue_ok hvalue, ?_⟩
  rw [optionalNatural_ok hsize]
  match size with
  | none => exact (Except.ok.inj h).symm
  | some 0 => cases h
  | some (n + 1) => exact (Except.ok.inj h).symm

theorem heading_ok {index : Nat} {e : Ui.Element} {c : Component}
    (h : heading index e = .ok c) :
    ∃ value, e.text? = some value ∧
      c = (Widget.heading ((e.natural? "level").getD defaultLevel) value).component := by
  obtain ⟨value, hvalue, h⟩ := ok_of_bind h
  obtain ⟨level, hlevel, h⟩ := ok_of_bind h
  refine ⟨value, requiredValue_ok hvalue, ?_⟩
  rw [optionalNatural_ok hlevel]
  cases level with
  | none => exact (Except.ok.inj h).symm
  | some n =>
      dsimp only at h
      split at h
      · exact (Except.ok.inj h).symm
      · cases h

theorem button_ok {index : Nat} {e : Ui.Element} {c : Component}
    (h : button index e = .ok c) :
    ∃ value, e.text? = some value ∧ c = (Widget.button index e.action? value).component := by
  obtain ⟨value, hvalue, h⟩ := ok_of_bind h
  exact ⟨value, requiredValue_ok hvalue, (Except.ok.inj h).symm⟩

theorem input_ok {index : Nat} {e : Ui.Element} {c : Component} (h : input index e = .ok c) :
    c = (Widget.editor index (e.text?.getD "")).component := by
  obtain ⟨hint, hhint, h⟩ := ok_of_bind h
  rw [optionalValue_ok hhint]
  exact (Except.ok.inj h).symm

end Component

namespace Translators

theorem get?_builtin (kind : String) :
    builtin.get? kind =
      if kind = "input" then some Component.input
      else if kind = "button" then some Component.button
      else if kind = "heading" then some Component.heading
      else if kind = "text" then some Component.text
      else none := by
  simp [builtin, Table.ofList, Table.get?_insert, Table.get?_empty]

/-- A component given by the built-in translators is that of a widget. -/
theorem instantiate_builtin {index : Nat} {e : Ui.Element} {c : Component}
    (h : builtin.instantiate index e = .ok c) :
    ∃ w, Widget.Describes index e w ∧ c = w.component := by
  unfold instantiate at h
  cases hkind : e.kind? with
  | none => simp [hkind] at h
  | some kind =>
      simp only [hkind, get?_builtin] at h
      split_ifs at h with hinput hbutton hheading htext
      · subst hinput
        exact ⟨_, .editor hkind, Component.input_ok h⟩
      · subst hbutton
        obtain ⟨value, hvalue, hc⟩ := Component.button_ok h
        exact ⟨_, .button hkind hvalue, hc⟩
      · subst hheading
        obtain ⟨value, hvalue, hc⟩ := Component.heading_ok h
        exact ⟨_, .heading hkind hvalue, hc⟩
      · subst htext
        obtain ⟨value, hvalue, hc⟩ := Component.text_ok h
        exact ⟨_, .label hkind hvalue, hc⟩

/-- Every component that the library makes handles and renders as components do. -/
theorem standard_builtin {index : Nat} {e : Ui.Element} {c : Component}
    (h : builtin.instantiate index e = .ok c) : c.Standard := by
  obtain ⟨w, _, rfl⟩ := instantiate_builtin h
  exact w.standard_component

end Translators

end GioForge
