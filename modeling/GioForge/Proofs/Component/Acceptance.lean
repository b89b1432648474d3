import GioForge.Component.Builtin
import Mathlib.Tactic.Common

/-!
Which elements the built-in translators accept. Acceptance is said in terms of what the
document holds, apart from how the translators look for it, and so is each fault: the
value is looked at before the size or the level. An element is accepted or has a fault,
and the translator does accordingly.
-/

namespace GioForge

namespace Ui.Element

/-- The tag of the element: its kind or, where that is missing or blank, the legacy one. -/
inductive Tagged (e : Element) : String → Prop where
  | tag {t : String} (h : e.tag = some t) (hblank : Text.isBlankText t = false) : Tagged e t
  | legacy {t : String} (htag : ∀ s, e.tag = some s → Text.isBlankText s = true)
      (h : e.legacyTag = some t) (hblank : Text.isBlankText t = false) : Tagged e t

def HasText (e : Element) : Prop :=
  ∃ s, e.rawValue = some (.text s)

/-- The element has no value, or null. -/
def LacksValue (e : Element) : Prop :=
  e.rawValue = none ∨ e.rawValue = some .null

/-- The element does not have the field, or has null there. -/
def Lacks (e : Element) (field : String) : Prop :=
  e.fields.get? field = none ∨ e.fields.get? field = some .null

/-- The field of the element is a whole number from zero on that fits into 64 bits. -/
def HasNatural (e : Element) (field : String) (n : Nat) : Prop :=
  e.fields.get? field = some (.number (.natural n)) ∧ n < UInt64.size

theorem usableTag_eq_some_iff (tag : Option String) (t : String) :
    usableTag tag = some t ↔ tag = some t ∧ Text.isBlankText t = false := by
  simp [usableTag, Option.filter_eq_some_iff]

/-- The kind of an element is the usable one of its two tags, the new one first. -/
theorem kind?_eq_some_iff (e : Element) (t : String) : e.kind? = some t ↔ e.Tagged t := by
  unfold kind?
  constructor
  · intro h
    cases htag : usableTag e.tag with
    | some s =>
        obtain rfl : s = t := by simpa [htag] using h
        obtain ⟨hsome, hblank⟩ := (usableTag_eq_some_iff _ _).mp htag
        exact .tag hsome hblank
    | none =>
        have hlegacy : usableTag e.legacyTag = some t := by simpa [htag] using h
        obtain ⟨hsome, hblank⟩ := (usableTag_eq_some_iff _ _).mp hlegacy
        refine .legacy ?_ hsome hblank
        intro s hs
        by_contra hvisible
        have husable := (usableTag_eq_some_iff e.tag s).mpr ⟨hs, by simpa using hvisible⟩
        rw [htag] at husable
        cases husable
  · intro h
    cases h with
    | tag hsome hblank =>
        rw [(usableTag_eq_some_iff _ _).mpr ⟨hsome, hblank⟩]
        rfl
    | legacy htag hsome hblank =>
        have hnone : usableTag e.tag = none := by
          cases hs : usableTag e.tag with
          | none => rfl
          | some s =>
              obtain ⟨hsome, hvisible⟩ := (usableTag_eq_some_iff _ _).mp hs
              rw [htag s hsome] at hvisible
              cases hvisible
        rw [hnone, (usableTag_eq_some_iff _ _).mpr ⟨hsome, hblank⟩]
        rfl

end Ui.Element

inductive Builtin where
  | text
  | heading
  | button
  | input
  deriving DecidableEq

namespace Builtin

open Component Ui.Element

def name : Builtin → String
  | .text => "text"
  | .heading => "heading"
  | .button => "button"
  | .input => "input"

def translator : Builtin → Translator
  | .text => Component.text
  | .heading => Component.heading
  | .button => Component.button
  | .input => Component.input

def Accepts : Builtin → Ui.Element → Prop
  | .text, e => e.HasText ∧ (e.Lacks "size" ∨ ∃ n, e.HasNatural "size" n ∧ 1 ≤ n)
  | .heading, e => e.HasText ∧ (e.Lacks "level" ∨ ∃ n, e.HasNatural "level" n ∧ 1 ≤ n ∧ n ≤ 6)
  | .button, e => e.HasText
  | .input, e => e.LacksValue ∨ e.HasText

/-- The first fault of an element, with the field it is in. -/
inductive Faulty (e : Ui.Element) : Builtin → String → FieldFault → Prop where
  | valueMissing {kind : Builtin} (hkind : kind ≠ .input) (h : e.LacksValue) :
      Faulty e kind "value" .missing
  | valueNotText {kind : Builtin} (hthere : ¬ e.LacksValue) (h : ¬ e.HasText) :
      Faulty e kind "value" .notText
  | sizeNotNatural (htext : e.HasText) (hthere : ¬ e.Lacks "size")
      (h : ∀ n, ¬ e.HasNatural "size" n) : Faulty e .text "size" .notNatural
  | sizeZero (htext : e.HasText) (h : e.HasNatural "size" 0) : Faulty e .text "size" .zero
  | levelNotNatural (htext : e.HasText) (hthere : ¬ e.Lacks "level")
      (h : ∀ n, ¬ e.HasNatural "level" n) : Faulty e .heading "level" .notNatural
  | levelOutside {n : Nat} (htext : e.HasText) (h : e.HasNatural "level" n)
      (hn : n < 1 ∨ 6 < n) : Faulty e .heading "level" .notLevel

end Builtin

/-- A number counts as natural if it is written as one and fits into a word. -/
theorem Value.natural?_eq_some_iff (v : Value) (n : Nat) :
    v.natural? = some n ↔ v = .number (.natural n) ∧ n < UInt64.size := by
  have hlimit : n ≤ Number.naturalLimit ↔ n < UInt64.size := by
    have hvalue : Number.naturalLimit + 1 = UInt64.size := rfl
    omega
  rw [← hlimit]
  unfold Value.natural?
  split
  · next m =>
      simp only [Option.ite_none_right_eq_some, Option.some.injEq, Value.number.injEq,
        Number.natural.injEq]
      constructor
      · rintro ⟨hle, rfl⟩
        exact ⟨rfl, hle⟩
      · rintro ⟨rfl, hle⟩
        exact ⟨hle, rfl⟩
  · next hother =>
      constructor
      · intro h
        cases h
      · rintro ⟨rfl, _⟩
        exact absurd rfl (hother n)

namespace Component

open Ui.Element

theorem optionalValue_of_lacks {e : Ui.Element} (h : e.LacksValue) (index : Nat) (kind : String) :
    optionalValue index kind e = .ok none := by
  have hvalue : e.value? = none := by
    rcases h with h | h <;> simp [value?, h, Value.isNull]
  simp [optionalValue, hvalue]

theorem optionalValue_of_text {e : Ui.Element} {s : String} (h : e.rawValue = some (.text s))
    (index : Nat) (kind : String) : optionalValue index kind e = .ok (some s) := by
  have hvalue : e.value? = some (.text s) := by simp [value?, h, Value.isNull]
  simp [optionalValue, hvalue, Value.text?]

theorem optionalValue_of_other {e : Ui.Element} (hthere : ¬ e.LacksValue) (htext : ¬ e.HasText)
    (index : Nat) (kind : String) :
    optionalValue index kind e =
      .error (.malformed index kind "value" FieldFault.notText.reason) := by
  simp only [LacksValue, HasText, not_or, not_exists] at hthere htext
  cases hraw : e.rawValue with
  | none => exact absurd hraw hthere.1
  | some v =>
      rw [hraw] at hthere htext
      unfold optionalValue value?
      rw [hraw]
      cases v with
      | null => exact absurd rfl hthere.2
      | text s => exact absurd rfl (htext s)
      | _ => rfl

/-- Where a text is needed, none at all is a fault of its own. -/
theorem requiredValue_of_lacks {e : Ui.Element} (h : e.LacksValue) (index : Nat) (kind : String) :
    requiredValue index kind e =
      .error (.malformed index kind "value" FieldFault.missing.reason) := by
  unfold requiredValue
  rw [optionalValue_of_lacks h]
  rfl

theorem requiredValue_of_text {e : Ui.Element} {s : String} (h : e.rawValue = some (.text s))
    (index : Nat) (kind : String) : requiredValue index kind e = .ok s := by
  unfold requiredValue
  rw [optionalValue_of_text h]
  rfl

theorem requiredValue_of_other {e : Ui.Element} (hthere : ¬ e.LacksValue) (htext : ¬ e.HasText)
    (index : Nat) (kind : String) :
    requiredValue index kind e =
      .error (.malformed index kind "value" FieldFault.notText.reason) := by
  unfold requiredValue
  rw [optionalValue_of_other hthere htext]
  rfl

theorem optionalNatural_of_lacks {e : Ui.Element} {field : String} (h : e.Lacks field)
    (index : Nat) (kind : String) : optionalNatural index kind e field = .ok none := by
  have hfield : e.field? field = none := by
    rcases h with h | h <;> simp [field?, h, Value.isNull]
  simp [optionalNatural, hfield]

theorem optionalNatural_of_natural {e : Ui.Element} {field : String} {n : Nat}
    (h : e.HasNatural field n) (index : Nat) (kind : String) :
    optionalNatural index kind e field = .ok (some n) := by
  have hfield : e.field? field = some (.number (.natural n)) := by
    simp [field?, h.1, Value.isNull]
  simp [optionalNatural, hfield, (Value.natural?_eq_some_iff _ n).mpr ⟨rfl, h.2⟩]

theorem optionalNatural_of_other {e : Ui.Element} {field : String} (hthere : ¬ e.Lacks field)
    (hnatural : ∀ n, ¬ e.HasNatural field n) (index : Nat) (kind : String) :
    optionalNatural index kind e field =
      .error (.malformed index kind field FieldFault.notNatural.reason) := by
  simp only [Lacks, not_or] at hthere
  cases hraw : e.fields.get? field with
  | none => exact absurd hraw hthere.1
  | some v =>
      have hfield : e.field? field = some v := by
        have hnull : v.isNull = false := by
          cases v with
          | null => exact absurd hraw hthere.2
          | _ => rfl
        simp [field?, hraw, hnull]
      have hnone : v.natural? = none := by
        cases hv : v.natural? with
        | none => rfl
        | some n =>
            obtain ⟨rfl, hn⟩ := (Value.natural?_eq_some_iff v n).mp hv
            exact absurd ⟨hraw, hn⟩ (hnatural n)
      simp [optionalNatural, hfield, hnone]

end Component

namespace Builtin

open Component Ui.Element

/-- An element that is in order is translated. -/
theorem translator_of_accepts {kind : Builtin} {e : Ui.Element} (h : kind.Accepts e)
    (index : Nat) : ∃ c, kind.translator index e = .ok c := by
  cases kind with
  | text =>
      obtain ⟨⟨s, hs⟩, hlacks | ⟨n, hn, hpos⟩⟩ := h
      · simp only [translator, Component.text, requiredValue_of_text hs,
          optionalNatural_of_lacks hlacks]
        exact ⟨_, rfl⟩
      · obtain ⟨m, rfl⟩ := Nat.exists_eq_add_of_le' hpos
        simp only [translator, Component.text, requiredValue_of_text hs,
          optionalNatural_of_natural hn]
        exact ⟨_, rfl⟩
  | heading =>
      obtain ⟨⟨s, hs⟩, hlacks | ⟨n, hn, hlevel⟩⟩ := h
      · simp only [translator, Component.heading, requiredValue_of_text hs,
          optionalNatural_of_lacks hlacks]
        exact ⟨_, rfl⟩
      · have hrange : (decide (1 ≤ n) && decide (n ≤ 6)) = true := by simpa using hlevel
        simp only [translator, Component.heading, requiredValue_of_text hs,
          optionalNatural_of_natural hn]
        simp only [bind, Except.bind, hrange, if_true]
        exact ⟨_, rfl⟩
  | button =>
      obtain ⟨s, hs⟩ := h
      simp only [translator, Component.button, requiredValue_of_text hs]
      exact ⟨_, rfl⟩
  | input =>
      rcases h with hlacks | ⟨s, hs⟩
      · simp only [translator, Component.input, optionalValue_of_lacks hlacks]
        exact ⟨_, rfl⟩
      · simp only [translator, Component.input, optionalValue_of_text hs]
        exact ⟨_, rfl⟩

/-- An element with a fault is refused for it. -/
theorem translator_of_faulty {kind : Builtin} {e : Ui.Element} {field : String}
    {fault : FieldFault} (h : Faulty e kind field fault) (index : Nat) :
    kind.translator index e = .error (.malformed index kind.name field fault.reason) := by
  cases h with
  | valueMissing hkind h =>
      cases kind with
      | text =>
          simp only [translator, Component.text, requiredValue_of_lacks h]
          rfl
      | heading =>
          simp only [translator, Component.heading, requiredValue_of_lacks h]
          rfl
      | button =>
          simp only [translator, Component.button, requiredValue_of_lacks h]
          rfl
      | input => exact absurd rfl hkind
  | valueNotText hthere h =>
      cases kind with
      | text =>
          simp only [translator, Component.text, requiredValue_of_other hthere h]
          rfl
      | heading =>
          simp only [translator, Component.heading, requiredValue_of_other hthere h]
          rfl
      | button =>
          simp only [translator, Component.button, requiredValue_of_other hthere h]
          rfl
      | input =>
          simp only [translator, Component.input, optionalValue_of_other hthere h]
          rfl
  | sizeNotNatural htext hthere h =>
      obtain ⟨s, hs⟩ := htext
      simp only [translator, Component.text, requiredValue_of_text hs,
        optionalNatural_of_other hthere h]
      rfl
  | sizeZero htext h =>
      obtain ⟨s, hs⟩ := htext
      simp only [translator, Component.text, requiredValue_of_text hs,
        optionalNatural_of_natural h]
      rfl
  | levelNotNatural htext hthere h =>
      obtain ⟨s, hs⟩ := htext
      simp only [translator, Component.heading, requiredValue_of_text hs,
        optionalNatural_of_other hthere h]
      rfl
  | @levelOutside n htext h hn =>
      obtain ⟨s, hs⟩ := htext
      have hrange : (decide (1 ≤ n) && decide (n ≤ 6)) = false := by
        rw [Bool.eq_false_iff]
        intro hboth
        simp only [Bool.and_eq_true, decide_eq_true_eq] at hboth
        omega
      simp only [translator, Component.heading, requiredValue_of_text hs,
        optionalNatural_of_natural h]
      simp only [bind, Except.bind, hrange]
      rfl

/-- An element is in order or has a fault. -/
theorem accepts_or_faulty (kind : Builtin) (e : Ui.Element) :
    kind.Accepts e ∨ ∃ field fault, Faulty e kind field fault := by
  by_cases hlacks : e.LacksValue
  · cases kind with
    | input => exact .inl (.inl hlacks)
    | _ => exact .inr ⟨_, _, .valueMissing (by decide) hlacks⟩
  by_cases htext : e.HasText
  · cases kind with
    | button => exact .inl htext
    | input => exact .inl (.inr htext)
    | text =>
        by_cases hsize : e.Lacks "size"
        · exact .inl ⟨htext, .inl hsize⟩
        by_cases hnatural : ∃ n, e.HasNatural "size" n
        · obtain ⟨n, hn⟩ := hnatural
          rcases Nat.eq_zero_or_pos n with rfl | hpos
          · exact .inr ⟨_, _, .sizeZero htext hn⟩
          · exact .inl ⟨htext, .inr ⟨n, hn, hpos⟩⟩
        · exact .inr ⟨_, _, .sizeNotNatural htext hsize (not_exists.mp hnatural)⟩
    | heading =>
        by_cases hlevel : e.Lacks "level"
        · exact .inl ⟨htext, .inl hlevel⟩
        by_cases hnatural : ∃ n, e.HasNatural "level" n
        · obtain ⟨n, hn⟩ := hnatural
          by_cases hrange : 1 ≤ n ∧ n ≤ 6
          · exact .inl ⟨htext, .inr ⟨n, hn, hrange⟩⟩
          · exact .inr ⟨_, _, .levelOutside htext hn (by omega)⟩
        · exact .inr ⟨_, _, .levelNotNatural htext hlevel (not_exists.mp hnatural)⟩
  · exact .inr ⟨_, _, .valueNotText hlacks htext⟩

end Builtin

end GioForge
