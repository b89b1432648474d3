import GioForge.Compilation
import GioForge.Proofs.Component.Builtin
import GioForge.Proofs.Response.Message

/-!
The programs that the built-in translators and responses lead to. Such a program is
determined by a page: the window, the widgets that the elements describe, the message
of each action and whether there is a message to show at all. Everything said below
about generated programs is said about pages.
-/

namespace GioForge

open Code

namespace Widget

def message? (messageOf : String → Option String) : Widget → Option String
  | .button _ action _ => action.bind messageOf
  | _ => none

/-- The statements that react to the use of the widget. -/
def reaction (messageOf : String → Option String) : Widget → List Fragment
  | .button index action _ =>
      ((action.bind messageOf).map fun message =>
        .block ("if " ++ (buttonName index ++ ".Clicked(gtx)") ++ " \x7b")
          [.line (Response.setMessage message)] (some "\x7d")).toList
  | _ => []

def slot (messageOf : String → Option String) (w : Widget) : List Fragment :=
  w.reaction messageOf ++ Component.layOut w.call

end Widget

theorem Code.Fragment.lastLineOf?_concat (body : List Fragment) (text : String) :
    Fragment.lastLineOf? (body ++ [.line text]) = some text := by
  induction body with
  | nil => rfl
  | cons fragment rest ih =>
      rw [List.cons_append, Fragment.lastLineOf?, ih]

/-- A slot that ends by laying out a widget returns already. -/
theorem Program.ensureReturn_layOut (before : List Fragment) (call : String) :
    ensureReturn (before ++ Component.layOut call) = before ++ Component.layOut call := by
  have hreturn : beginsWithReturn ("return material." ++ call ++ ".Layout(gtx)") = true := by
    have hblank : Text.isBlank 'r' = false := rfl
    simp [beginsWithReturn, Text.trimStart, hblank]
  unfold ensureReturn Component.layOut
  rw [Fragment.lastLineOf?_concat]
  simp [hreturn]

/-- The slot of a component whose handlers all assign messages. -/
theorem Widget.ensureReturn_render (w : Widget) (handlers : Handlers)
    (messageOf : String → Option String)
    (hhandlers : ∀ action, handlers.get? action = (messageOf action).map Response.setMessage) :
    Program.ensureReturn (w.component.render (some handlers)) = w.slot messageOf := by
  have hrender : w.component.render (some handlers) = w.slot messageOf := by
    cases w with
    | button index action text =>
        cases action with
        | none => rfl
        | some id =>
            have hhandler : Component.bound? (some id) (some handlers) =
                (messageOf id).map Response.setMessage := hhandlers id
            have hreacting : (Widget.button index (some id) text).component.render
                (some handlers) = Component.reacting (Component.bound? (some id) (some handlers))
                  (some (Widget.buttonName index ++ ".Clicked(gtx)"))
                  (Component.layOut (Widget.button index (some id) text).call) := rfl
            rw [hreacting, hhandler]
            cases hmessage : messageOf id with
            | none => simp [Component.reacting, Widget.slot, Widget.reaction, hmessage]
            | some message =>
                simp [Component.reacting, Widget.slot, Widget.reaction, hmessage,
                  Response.ofText_setMessage]
    | _ => rfl
  rw [hrender]
  exact Program.ensureReturn_layOut _ _

/-- What determines a program made with the built-in translators and responses. -/
structure Page where
  window : Window
  widgets : List Widget
  messageOf : String → Option String
  /-- Whether there is a handler, and so a message to show. -/
  feedback : Bool

namespace Page

def imports (page : Page) : Imports :=
  let imports := page.widgets.foldl (fun all w => all.merge w.component.imports)
    (Program.baselineImports.merge page.window.imports)
  if page.feedback then imports.add Component.materialPackage "Body1" else imports

def state (page : Page) : List StateVariable :=
  (page.widgets.filterMap fun w => w.component.state) ++
    if page.feedback then [⟨messageVariable, "string"⟩] else []

def slots (page : Page) : List (List Fragment) :=
  page.widgets.map (Widget.slot page.messageOf) ++
    if page.feedback then [Compilation.messageSlot] else []

def program (page : Page) : Program :=
  { imports := page.imports
    window := page.window
    state := page.state
    slots := page.slots }

/-- The page of a user interface whose elements describe the widgets. -/
def of (ui : Ui.Graph) (relation : Relation.Graph) (widgets : List Widget) : Page :=
  { window := Window.ofSpec ui.window
    widgets
    messageOf := relation.lastMessage?
    feedback := !(resolveActions relation).isEmpty }

/-- The variables of a page are those of its buttons and input fields and the one for
the message. -/
theorem mem_state (page : Page) (v : StateVariable) :
    v ∈ page.state ↔
      (∃ index action text, .button index action text ∈ page.widgets ∧
        v = ⟨Widget.buttonName index, "widget.Clickable"⟩) ∨
      (∃ index hint, .editor index hint ∈ page.widgets ∧
        v = ⟨Widget.editorName index, "widget.Editor"⟩) ∨
      page.feedback = true ∧ v = ⟨messageVariable, "string"⟩ := by
  have hmessage : (v ∈ if page.feedback then [⟨messageVariable, "string"⟩] else []) ↔
      page.feedback = true ∧ v = ⟨messageVariable, "string"⟩ := by
    cases page.feedback <;> simp
  unfold state
  rw [List.mem_append, hmessage, List.mem_filterMap, ← or_assoc]
  apply or_congr_left
  constructor
  · rintro ⟨w, hw, hv⟩
    cases w with
    | label size text => cases hv
    | heading level text => cases hv
    | button index action text =>
        exact Or.inl ⟨index, action, text, hw, (Option.some.inj hv).symm⟩
    | editor index hint => exact Or.inr ⟨index, hint, hw, (Option.some.inj hv).symm⟩
  · rintro (⟨index, action, text, hw, rfl⟩ | ⟨index, hint, hw, rfl⟩)
    · exact ⟨_, hw, rfl⟩
    · exact ⟨_, hw, rfl⟩

end Page

namespace Compilation

/-- Elements that are translated describe widgets, one for one. -/
theorem translate_builtin {elements : List Ui.Element} {placed : List Placed}
    (h : translate Translators.builtin elements = .ok placed) :
    ∃ widgets : List Widget,
      List.Forall₂ (fun p w => Widget.Describes p.2 p.1 w) elements.zipIdx widgets ∧
      placed.map Placed.component = widgets.map Widget.component := by
  unfold translate at h
  generalize elements.zipIdx = pairs at h ⊢
  induction pairs generalizing placed with
  | nil =>
      obtain rfl : [] = placed := Except.ok.inj h
      exact ⟨[], .nil, rfl⟩
  | cons p rest ih =>
      rw [List.mapM_cons] at h
      obtain ⟨first, hfirst, h⟩ := ok_of_bind h
      obtain ⟨others, hothers, h⟩ := ok_of_bind h
      obtain rfl : first :: others = placed := Except.ok.inj h
      obtain ⟨c, hc, hplaced⟩ := ok_of_bind hfirst
      obtain ⟨w, hw, rfl⟩ := Translators.instantiate_builtin hc
      obtain ⟨widgets, hwidgets, hcomponents⟩ := ih hothers
      obtain rfl := Except.ok.inj hplaced
      exact ⟨w :: widgets, .cons hw hwidgets, by simp [hcomponents]⟩

/-- The program of components with the given handlers. -/
theorem assemble_page {window : Window} {handlers : Handlers} {placed : List Placed}
    {widgets : List Widget} {messageOf : String → Option String}
    (hplaced : placed.map Placed.component = widgets.map Widget.component)
    (hhandlers : ∀ action, handlers.get? action = (messageOf action).map Response.setMessage) :
    assemble window handlers placed =
      Page.program ⟨window, widgets, messageOf, !handlers.isEmpty⟩ := by
  have himports : ∀ start : Imports,
      placed.foldl (fun all p => all.merge p.component.imports) start =
        widgets.foldl (fun all w => all.merge w.component.imports) start := by
    intro start
    have h := congrArg (List.foldl (fun all c => all.merge c.imports) start) hplaced
    simpa only [List.foldl_map] using h
  have hstate : (placed.filterMap fun p => p.component.state) =
      widgets.filterMap fun w => w.component.state := by
    have h := congrArg (List.filterMap Component.state) hplaced
    simpa only [List.filterMap_map, Function.comp_def] using h
  have hslots : (placed.map fun p => Program.ensureReturn (p.component.render (some handlers))) =
      widgets.map (Widget.slot messageOf) := by
    have h := congrArg (List.map fun c => Program.ensureReturn (c.render (some handlers))) hplaced
    simp only [List.map_map, Function.comp_def] at h
    rw [h]
    exact List.map_congr_left fun w _ => w.ensureReturn_render handlers messageOf hhandlers
  unfold assemble
  simp only [himports, hstate, hslots]
  cases handlers.isEmpty <;> simp [Page.program, Page.imports, Page.state, Page.slots]

/-- A user interface that compiles with the built-in translators and responses gives
the program of a page. -/
theorem compose_page {ui : Ui.Graph} {relation : Relation.Graph} {c : Compilation}
    (h : compose Translators.builtin ui (resolveActions relation) = .ok c) :
    ∃ widgets : List Widget,
      List.Forall₂ (fun p w => Widget.Describes p.2 p.1 w) ui.elements.zipIdx widgets ∧
      c.program = (Page.of ui relation widgets).program := by
  obtain ⟨placed, hplaced, h⟩ := ok_of_bind h
  obtain ⟨widgets, hwidgets, hcomponents⟩ := translate_builtin hplaced
  obtain rfl := Except.ok.inj h
  exact ⟨widgets, hwidgets, assemble_page hcomponents (get?_resolveActions relation)⟩

/-- A source text that was compiled is that of a page. -/
theorem page_of_compile {ui : Ui.Graph} {relation : Relation.Graph} {source : String}
    (h : compile ui (resolveActions relation) = .ok source) :
    ∃ (c : Compilation) (widgets : List Widget),
      compose Translators.builtin ui (resolveActions relation) = .ok c ∧
      List.Forall₂ (fun p w => Widget.Describes p.2 p.1 w) ui.elements.zipIdx widgets ∧
      c.program = (Page.of ui relation widgets).program ∧
      source = (Page.of ui relation widgets).program.source := by
  unfold compile at h
  cases hc : compose Translators.builtin ui (resolveActions relation) with
  | error e => simp [hc, Except.map] at h
  | ok c =>
      rw [hc] at h
      have hsource : source = c.program.source := (Except.ok.inj h).symm
      obtain ⟨widgets, hwidgets, hprogram⟩ := compose_page hc
      rw [hprogram] at hsource
      exact ⟨c, widgets, rfl, hwidgets, hprogram, hsource⟩

end Compilation

end GioForge
