import GioForge.Proofs.Compilation.Page
import GioForge.Proofs.Compilation.Translation
import GioForge.Proofs.Component.Acceptance

/-!
What becomes of the actions of elements. Whether a slot reacts is decided by the
component and the handlers, and whether there is a warning is decided by the element
and the handlers, apart from each other. For the built-in kinds the two agree: an action
is handled without a warning, or it is left out with one.
-/

namespace GioForge

open Code Compilation CompileError

/-- All translators are built-in ones, under whatever tags. -/
def Translators.AllBuiltin (translators : Translators) : Prop :=
  ∀ tag translator, translators.get? tag = some translator →
    ∃ kind : Builtin, translator = kind.translator

def Compilation.diagnosticsAt (c : Compilation) (place : String) : List Diagnostic :=
  c.diagnostics.filter fun d => d.location = some place

/-- The slot of an element and what is noted about it. The conditions of the four cases
exclude each other. -/
inductive Treatment (handlers : Handlers) (index : Nat) (e : Ui.Element) (c : Component) :
    List Fragment → List Diagnostic → Prop where
  /-- There is no action. -/
  | unbound (haction : e.action? = none) :
      Treatment handlers index e c (Program.ensureReturn c.body) []
  /-- The handler of the action runs when the element was used. -/
  | handled {action signal text : String} (haction : e.action? = some action)
      (hsignal : c.signal = some signal) (htext : handlers.get? action = some text) :
      Treatment handlers index e c
        (.block ("if " ++ signal ++ " \x7b") (Fragment.ofText text) (some "\x7d") :: c.body) []
  /-- The action has no handler. -/
  | unresolved {action signal : String} (haction : e.action? = some action)
      (hsignal : c.signal = some signal) (htext : handlers.get? action = none) :
      Treatment handlers index e c c.body
        [warning ("no script defines action '" ++ action ++
          "'; the element renders without interaction") (placeOf index)]
  /-- The element cannot be used. -/
  | inert {action : String} (haction : e.action? = some action) (hsignal : c.signal = none) :
      Treatment handlers index e c c.body
        [warning ("'" ++ c.kind ++ "' elements are not interactive; action '" ++ action ++
          "' is ignored") (placeOf index)]

/-- Whatever a translator of the library makes is one of its widgets. -/
theorem Builtin.exists_widget {kind : Builtin} {index : Nat} {e : Ui.Element} {c : Component}
    (h : kind.translator index e = .ok c) : ∃ w : Widget, c = w.component := by
  cases kind with
  | text =>
      obtain ⟨_, _, hc⟩ := Component.text_ok h
      exact ⟨_, hc⟩
  | heading =>
      obtain ⟨_, _, hc⟩ := Component.heading_ok h
      exact ⟨_, hc⟩
  | button =>
      obtain ⟨_, _, hc⟩ := Component.button_ok h
      exact ⟨_, hc⟩
  | input => exact ⟨_, Component.input_ok h⟩

/-- The translators of the library leave handling and rendering as every component has them. -/
theorem Builtin.standard {kind : Builtin} {index : Nat} {e : Ui.Element} {c : Component}
    (h : kind.translator index e = .ok c) : c.Standard := by
  obtain ⟨w, rfl⟩ := exists_widget h
  exact w.standard_component

theorem Widget.body_component (w : Widget) : w.component.body = Component.layOut w.call := by
  cases w <;> rfl

theorem Builtin.exists_layOut {kind : Builtin} {index : Nat} {e : Ui.Element} {c : Component}
    (h : kind.translator index e = .ok c) : ∃ call, c.body = Component.layOut call := by
  obtain ⟨w, rfl⟩ := exists_widget h
  exact ⟨w.call, w.body_component⟩

/-- A component that can be used is bound to the action of its element. -/
theorem Builtin.action_eq {kind : Builtin} {index : Nat} {e : Ui.Element} {c : Component}
    {signal : String} (h : kind.translator index e = .ok c) (hsignal : c.signal = some signal) :
    c.action = e.action? := by
  cases kind with
  | text =>
      obtain ⟨_, _, rfl⟩ := Component.text_ok h
      cases hsignal
  | heading =>
      obtain ⟨_, _, rfl⟩ := Component.heading_ok h
      cases hsignal
  | button =>
      obtain ⟨_, _, rfl⟩ := Component.button_ok h
      rfl
  | input =>
      obtain rfl := Component.input_ok h
      cases hsignal

theorem Handlers.contains_eq (handlers : Handlers) (action : String) :
    handlers.contains action = (handlers.get? action).isSome := by
  rw [Bool.eq_iff_iff, Table.contains_iff_mem_keys, Table.mem_keys_iff_isSome]

/-- A component that cannot be used is laid out and that is all, whatever the handlers are. -/
theorem Component.Standard.render_of_inert {c : Component} (hc : c.Standard)
    (h : c.signal = none) (handlers : Handlers) : c.render (some handlers) = c.body := by
  rw [hc.render_eq, h]
  unfold reacting
  cases c.handler? (some handlers) <;> rfl

/-- A component that can be used is laid out below the block for the handler of its action, if
there is one. -/
theorem Component.Standard.render_of_signal {c : Component} {signal : String} (hc : c.Standard)
    (h : c.signal = some signal) (handlers : Handlers) :
    c.render (some handlers) =
      ((c.action.bind handlers.get?).map fun text =>
        .block ("if " ++ signal ++ " \x7b") (Fragment.ofText text) (some "\x7d")).toList ++
        c.body := by
  have hhandler : bound? c.action (some handlers) = c.action.bind handlers.get? := rfl
  rw [hc.render_eq, hc.handler?_eq, h, hhandler]
  cases c.action.bind handlers.get? <;> rfl

/-- For a built-in kind the slot and the warnings fit together. -/
theorem Builtin.treatment {kind : Builtin} {index : Nat} {e : Ui.Element} {c : Component}
    (h : kind.translator index e = .ok c) (handlers : Handlers) :
    Treatment handlers index e c (Program.ensureReturn (c.render (some handlers)))
      (actionWarnings handlers ⟨index, e, c⟩) := by
  obtain ⟨call, hcall⟩ := exists_layOut h
  have hreturn : ∀ before, Program.ensureReturn (before ++ c.body) = before ++ c.body := by
    intro before
    rw [hcall]
    exact Program.ensureReturn_layOut before call
  have hbody : Program.ensureReturn c.body = c.body := hreturn []
  unfold actionWarnings
  cases hsignal : c.signal with
  | none =>
      rw [(standard h).render_of_inert hsignal]
      cases haction : e.action? with
      | none => exact .unbound haction
      | some action =>
          rw [hbody]
          exact .inert haction hsignal
  | some signal =>
      rw [(standard h).render_of_signal hsignal, action_eq h hsignal]
      cases haction : e.action? with
      | none => exact .unbound haction
      | some action =>
          dsimp only
          rw [hreturn, Option.bind_some, handlers.contains_eq]
          cases htext : handlers.get? action with
          | none => exact .unresolved haction hsignal htext
          | some text => exact .handled haction hsignal htext

theorem CompileError.placeOf_injective : Function.Injective placeOf := by
  intro i j h
  unfold placeOf at h
  rw [String.append_left_inj, String.append_right_inj] at h
  exact Text.decimalText_injective h

/-- A report about the icon is never taken for one about an element. -/
theorem CompileError.placeOf_ne_icon (index : Nat) : placeOf index ≠ "window.icon" := by
  intro h
  have hhead := congrArg (fun s => s.toList.head?) h
  simp [placeOf] at hhead

theorem Compilation.location_of_mem_actionWarnings {handlers : Handlers} {p : Placed}
    {d : Diagnostic} (h : d ∈ actionWarnings handlers p) : d.location = some (placeOf p.index) := by
  unfold actionWarnings at h
  cases haction : p.element.action? with
  | none => simp [haction] at h
  | some action =>
      simp only [haction] at h
      split_ifs at h
      · rw [List.mem_singleton.mp h]
        rfl
      · rw [List.mem_singleton.mp h]
        rfl
      · cases h

/-- Among things with different keys, the one with a given key contributes all there is
under that key. -/
theorem flatMap_if_key {α β : Type} {key : α → Nat} {xs : List α} {x : α} (hx : x ∈ xs)
    (hkeys : (xs.map key).Nodup) (f : α → List β) :
    (xs.flatMap fun y => if key y = key x then f y else []) = f x := by
  induction xs with
  | nil => cases hx
  | cons y rest ih =>
      rw [List.map_cons, List.nodup_cons] at hkeys
      rw [List.flatMap_cons]
      by_cases hkey : key y = key x
      · have hrest : (rest.flatMap fun z => if key z = key x then f z else []) = [] := by
          rw [List.flatMap_eq_nil_iff]
          intro z hz
          rw [if_neg]
          intro heq
          exact hkeys.1 (List.mem_map.mpr ⟨z, hz, heq.trans hkey.symm⟩)
        rcases List.mem_cons.mp hx with rfl | hin
        · rw [hrest, if_pos rfl, List.append_nil]
        · exact absurd (List.mem_map.mpr ⟨x, hin, hkey.symm⟩) hkeys.1
      · rcases List.mem_cons.mp hx with rfl | hin
        · exact absurd rfl hkey
        · rw [if_neg hkey, List.nil_append, ih hin hkeys.2]

/-- Translated elements are numbered from zero without a gap. -/
theorem Compilation.index_placed {translators : Translators} {elements : List Ui.Element}
    {placed : List Placed} (h : translate translators elements = .ok placed) :
    placed.map Placed.index = List.range elements.length := by
  obtain ⟨hlength, hplaced⟩ := translate_ok h
  apply List.ext_getElem?
  intro i
  rw [List.getElem?_map]
  by_cases hi : i < elements.length
  · obtain ⟨c, _, hp⟩ := hplaced i elements[i] (List.getElem?_eq_getElem hi)
    simp [hp, hi]
  · have hplacedNone : placed[i]? = none := List.getElem?_eq_none (by omega)
    have hrangeNone : (List.range elements.length)[i]? = none :=
      List.getElem?_eq_none (by simpa using hi)
    rw [hplacedNone, hrangeNone]
    rfl

/-- The warnings at the place of an element are the ones that it gave rise to. -/
theorem Compilation.filter_warnings {handlers : Handlers} {placed : List Placed} {p : Placed}
    (hp : p ∈ placed) (hindices : (placed.map Placed.index).Nodup) :
    (placed.flatMap (actionWarnings handlers)).filter
        (fun d => d.location = some (placeOf p.index)) = actionWarnings handlers p := by
  have hpick : ∀ q : Placed, (actionWarnings handlers q).filter
      (fun d => d.location = some (placeOf p.index)) =
        if q.index = p.index then actionWarnings handlers q else [] := by
    intro q
    split
    · next heq =>
        rw [List.filter_eq_self]
        intro d hd
        rw [location_of_mem_actionWarnings hd, heq]
        exact decide_eq_true rfl
    · next hne =>
        rw [List.filter_eq_nil_iff]
        intro d hd
        rw [location_of_mem_actionWarnings hd, decide_eq_true_eq, Option.some.injEq]
        exact fun heq => hne (placeOf_injective heq)
  rw [List.filter_flatMap]
  simp only [hpick]
  exact flatMap_if_key hp hindices (actionWarnings handlers)

/-- The slot of an element holds what its component renders. -/
theorem Compilation.slots_assemble {placed : List Placed} {i : Nat} {p : Placed}
    (h : placed[i]? = some p) (window : Window) (handlers : Handlers) :
    (assemble window handlers placed).slots[i]? =
      some (Program.ensureReturn (p.component.render (some handlers))) := by
  have hslot : (placed.map fun q => Program.ensureReturn (q.component.render (some handlers)))[i]? =
      some (Program.ensureReturn (p.component.render (some handlers))) := by
    rw [List.getElem?_map, h]
    rfl
  unfold assemble
  dsimp only
  split
  · exact hslot
  · rw [List.getElem?_append_left]
    · exact hslot
    · exact (List.getElem?_eq_some_iff.mp hslot).1

/-- The warning for an icon is about no element. -/
theorem Compilation.filter_iconWarnings (window : Window) (index : Nat) :
    (iconWarnings window).filter (fun d => d.location = some (placeOf index)) = [] := by
  rw [List.filter_eq_nil_iff]
  intro d hd
  obtain ⟨icon, _, rfl⟩ := Option.map_eq_some_iff.mp (Option.mem_toList.mp hd)
  rw [decide_eq_true_eq]
  intro heq
  exact placeOf_ne_icon index (Option.some.inj heq).symm

theorem Translators.AllBuiltin.exists_kind {translators : Translators}
    (hbuiltin : translators.AllBuiltin) {index : Nat} {e : Ui.Element} {c : Component}
    (h : translators.instantiate index e = .ok c) :
    ∃ kind : Builtin, kind.translator index e = .ok c := by
  unfold instantiate at h
  cases htag : e.kind? with
  | none => simp [htag] at h
  | some tag =>
      cases htranslator : translators.get? tag with
      | none => simp [htag, htranslator] at h
      | some translator =>
          obtain ⟨kind, rfl⟩ := hbuiltin tag translator htranslator
          exact ⟨kind, by simpa [htag, htranslator] using h⟩

theorem Compilation.iconWarnings_ofSpec (spec : Option Ui.WindowSpec) :
    iconWarnings (Window.ofSpec spec) =
      (spec.bind Ui.WindowSpec.icon).toList.map fun path =>
        warning ("window icon '" ++ path ++
          "' cannot be set through Gio window options and was ignored") "window.icon" := by
  have hicon : (Window.ofSpec spec).icon = spec.bind Ui.WindowSpec.icon := by
    cases spec <;> rfl
  unfold iconWarnings
  rw [hicon]
  cases spec.bind Ui.WindowSpec.icon <;> rfl

/-- No action is lost without a trace. The slot of every element either handles its
action or comes with one warning, and there are no warnings but these, in the order of
the elements, and the one for an icon before them. -/
theorem actions_are_handled_or_reported {translators : Translators}
    (hbuiltin : translators.AllBuiltin) (ui : Ui.Graph) (handlers : Handlers) {c : Compilation}
    (h : compose translators ui handlers = .ok c) :
    (∀ i e, ui.elements[i]? = some e →
      ∃ component slot, translators.instantiate i e = .ok component ∧
        c.program.slots[i]? = some slot ∧
        Treatment handlers i e component slot (c.diagnosticsAt (placeOf i))) ∧
    c.diagnostics =
      ((ui.window.bind Ui.WindowSpec.icon).toList.map fun path =>
        warning ("window icon '" ++ path ++
          "' cannot be set through Gio window options and was ignored") "window.icon") ++
      (List.range ui.elements.length).flatMap fun i => c.diagnosticsAt (placeOf i) := by
  obtain ⟨placed, hplaced, h⟩ := ok_of_bind h
  obtain rfl := Except.ok.inj h
  have hindices := index_placed hplaced
  have hat : ∀ p ∈ placed, Compilation.diagnosticsAt ⟨assemble (Window.ofSpec ui.window) handlers
      placed, iconWarnings (Window.ofSpec ui.window) ++ placed.flatMap (actionWarnings handlers)⟩
      (placeOf p.index) = actionWarnings handlers p := by
    intro p hp
    have hnodup : (placed.map Placed.index).Nodup := hindices ▸ List.nodup_range
    unfold diagnosticsAt
    rw [List.filter_append, filter_iconWarnings, filter_warnings hp hnodup, List.nil_append]
  constructor
  · intro i e he
    obtain ⟨component, hcomponent, hp⟩ := (translate_ok hplaced).2 i e he
    obtain ⟨kind, hkind⟩ := hbuiltin.exists_kind hcomponent
    refine ⟨component, _, hcomponent, slots_assemble hp _ handlers, ?_⟩
    rw [hat ⟨i, e, component⟩ (List.mem_of_getElem? hp)]
    exact kind.treatment hkind handlers
  · rw [← hindices, ← iconWarnings_ofSpec, List.flatMap_map]
    exact congrArg _ (List.flatMap_congr fun p hp => (hat p hp).symm)

/-- A button without a handler between a button with one and a text with an action, in a
window with an icon. -/
theorem actions_are_handled_or_reported_mixed :
    ∃ c component slot,
      compose Translators.builtin
        { window := some { icon := some "app.png" }
          elements := [(Ui.Element.ofKind "button").withValue "Go" |>.withAction "go",
            (Ui.Element.ofKind "button").withValue "Stop" |>.withAction "stop",
            (Ui.Element.ofKind "text").withValue "Go" |>.withAction "go"] }
        (Table.empty.insert "go" "actionMessage = \"\"") = .ok c ∧
      c.diagnostics.length = 3 ∧
      c.program.slots[1]? = some slot ∧
      Treatment (Table.empty.insert "go" "actionMessage = \"\"") 1
        ((Ui.Element.ofKind "button").withValue "Stop" |>.withAction "stop") component slot
        (c.diagnosticsAt (placeOf 1)) := by
  have hbuiltin : Translators.builtin.AllBuiltin := by
    intro tag translator h
    rw [Translators.get?_builtin] at h
    split_ifs at h
    · exact ⟨.input, (Option.some.inj h).symm⟩
    · exact ⟨.button, (Option.some.inj h).symm⟩
    · exact ⟨.heading, (Option.some.inj h).symm⟩
    · exact ⟨.text, (Option.some.inj h).symm⟩
  obtain ⟨helements, _⟩ := actions_are_handled_or_reported hbuiltin
    { window := some { icon := some "app.png" }
      elements := [(Ui.Element.ofKind "button").withValue "Go" |>.withAction "go",
        (Ui.Element.ofKind "button").withValue "Stop" |>.withAction "stop",
        (Ui.Element.ofKind "text").withValue "Go" |>.withAction "go"] }
    (Table.empty.insert "go" "actionMessage = \"\"") rfl
  obtain ⟨component, slot, _, hslot, htreatment⟩ := helements 1 _ rfl
  exact ⟨_, component, slot, rfl, rfl, hslot, htreatment⟩

end GioForge
