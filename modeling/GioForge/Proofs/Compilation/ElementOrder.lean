import GioForge.Proofs.Compilation.Acceptance
import GioForge.Proofs.Compilation.ImportBlock

/-!
The order of elements has no part in what a program imports. Where an element stands shows
in the name of its variable only: whether it can be translated and what its component
imports are the same at every index. So another order of the elements merges the same sets
of imports in another order, and that can be seen neither by asking for packages and symbols
nor in the import block, which is sorted.
-/

namespace GioForge

open Code

namespace Translators

/-- Whether an element is accepted does not depend on where it stands. -/
theorem exists_instantiate_builtin_iff (i j : Nat) (e : Ui.Element) :
    (∃ c, builtin.instantiate i e = .ok c) ↔ ∃ c, builtin.instantiate j e = .ok c := by
  have hbuiltin : builtin = Registrations.translators
      [("text", .text), ("heading", .heading), ("button", .button), ("input", .input)] := rfl
  rw [hbuiltin, Registrations.instantiate_ok_iff, Registrations.instantiate_ok_iff]

end Translators

theorem Widget.Describes.imports_eq {i j : Nat} {e : Ui.Element} {v w : Widget}
    (hv : Describes i e v) (hw : Describes j e w) :
    v.component.imports = w.component.imports := by
  cases hv with
  | label hv =>
      cases hw with
      | label => rfl
      | _ hw => exact absurd (Option.some.inj (hv.symm.trans hw)) (by decide)
  | heading hv =>
      cases hw with
      | heading => rfl
      | _ hw => exact absurd (Option.some.inj (hv.symm.trans hw)) (by decide)
  | button hv =>
      cases hw with
      | button => rfl
      | _ hw => exact absurd (Option.some.inj (hv.symm.trans hw)) (by decide)
  | editor hv =>
      cases hw with
      | editor => rfl
      | _ hw => exact absurd (Option.some.inj (hv.symm.trans hw)) (by decide)

/-- What the component of an element imports, if the element can be translated. -/
def Ui.Element.imports (e : Ui.Element) : Imports :=
  match Translators.builtin.instantiate 0 e with
  | .ok c => c.imports
  | .error _ => .empty

theorem Ui.Element.imports_of_instantiate {index : Nat} {e : Ui.Element} {c : Component}
    (h : Translators.builtin.instantiate index e = .ok c) : c.imports = e.imports := by
  obtain ⟨first, hfirst⟩ := (Translators.exists_instantiate_builtin_iff index 0 e).mp ⟨c, h⟩
  obtain ⟨w, hw, rfl⟩ := Translators.instantiate_builtin h
  obtain ⟨v, hv, rfl⟩ := Translators.instantiate_builtin hfirst
  unfold imports
  rw [hfirst]
  exact hw.imports_eq hv

/-- Pages whose widgets import the same sets in any order import the same. -/
theorem Page.agree_imports {page other : Page} (hwindow : page.window = other.window)
    (hfeedback : page.feedback = other.feedback)
    (hwidgets : (page.widgets.map fun w => w.component.imports).Perm
      (other.widgets.map fun w => w.component.imports)) :
    page.imports.Agree other.imports := by
  have hmerged := Imports.agree_foldl_merge id hwidgets
    (Program.baselineImports.merge page.window.imports)
  rw [List.foldl_map, List.foldl_map] at hmerged
  unfold imports
  rw [← hwindow, ← hfeedback]
  dsimp only
  split
  · exact hmerged.add Component.materialPackage "Body1"
  · exact hmerged

namespace Compilation

/-- A page is composed exactly if each of its elements is accepted on its own. -/
theorem exists_compose_builtin_iff (ui : Ui.Graph) (handlers : Handlers) :
    (∃ c, compose Translators.builtin ui handlers = .ok c) ↔
      ∀ e ∈ ui.elements, ∃ c, Translators.builtin.instantiate 0 e = .ok c := by
  rw [compose_ok_iff, exists_translate_ok_iff]
  constructor
  · intro h e he
    obtain ⟨i, hi⟩ := List.mem_iff_getElem?.mp he
    exact (Translators.exists_instantiate_builtin_iff i 0 e).mp (h i e hi)
  · intro h i e he
    exact (Translators.exists_instantiate_builtin_iff 0 i e).mp (h e (List.mem_of_getElem? he))

theorem imports_of_translate {elements : List Ui.Element} {placed : List Placed}
    (h : translate Translators.builtin elements = .ok placed) :
    (placed.map fun p => p.component.imports) = elements.map Ui.Element.imports := by
  obtain ⟨hlength, hplaced⟩ := translate_ok h
  refine List.ext_getElem? fun i => ?_
  rw [List.getElem?_map, List.getElem?_map]
  cases he : elements[i]? with
  | none =>
      rw [List.getElem?_eq_none_iff, ← hlength] at he
      rw [List.getElem?_eq_none he]
      rfl
  | some e =>
      obtain ⟨c, hc, hp⟩ := hplaced i e he
      rw [hp]
      exact congrArg some (Ui.Element.imports_of_instantiate hc)

/-- With whatever handlers, a program imports what a page with its widgets does. -/
theorem imports_of_compose {ui : Ui.Graph} {handlers : Handlers} {c : Compilation}
    (h : compose Translators.builtin ui handlers = .ok c) :
    ∃ page : Page, c.program.imports = page.imports ∧ page.window = Window.ofSpec ui.window ∧
      page.feedback = !handlers.isEmpty ∧
      (page.widgets.map fun w => w.component.imports) = ui.elements.map Ui.Element.imports := by
  obtain ⟨placed, hplaced, h⟩ := ok_of_bind h
  obtain ⟨widgets, _, hcomponents⟩ := translate_builtin hplaced
  obtain rfl := Except.ok.inj h
  have hwidgets : (placed.map fun p => p.component.imports) =
      widgets.map fun w => w.component.imports := by
    have hmapped := congrArg (List.map Component.imports) hcomponents
    rwa [List.map_map, List.map_map] at hmapped
  refine ⟨⟨Window.ofSpec ui.window, widgets, fun _ => none, !handlers.isEmpty⟩, ?_, rfl, rfl,
    hwidgets.symm.trans (imports_of_translate hplaced)⟩
  have hmerged := congrArg
    (List.foldl Imports.merge (Program.baselineImports.merge (Window.ofSpec ui.window).imports))
    hwidgets
  rw [List.foldl_map, List.foldl_map] at hmerged
  unfold assemble Page.imports
  rw [hmerged]
  cases handlers.isEmpty <;> rfl

end Compilation

open Compilation in
/-- The elements of a user interface may be put into any order: it compiles in the one order exactly
if it does in the other, the two programs import the same packages with the same symbols, and their
sources have the same import block, line for line. -/
theorem element_order_keeps_imports (ui : Ui.Graph) (elements : List Ui.Element)
    (handlers : Handlers) (horder : ui.elements.Perm elements) :
    ((∃ c, compose Translators.builtin ui handlers = .ok c) ↔
      ∃ d, compose Translators.builtin { ui with elements } handlers = .ok d) ∧
    ∀ c d, compose Translators.builtin ui handlers = .ok c →
      compose Translators.builtin { ui with elements } handlers = .ok d →
      c.program.imports.same d.program.imports = true ∧
      (∀ package, c.program.imports.hasPackage package = d.program.imports.hasPackage package) ∧
      (∀ package symbol, c.program.imports.hasSymbol package symbol =
        d.program.imports.hasSymbol package symbol) ∧
      importedLines c.source = importedLines d.source ∧
      importedLines c.source =
        c.program.imports.paths.map fun package => "\t\"" ++ package ++ "\"" := by
  constructor
  · rw [exists_compose_builtin_iff, exists_compose_builtin_iff]
    simp only [horder.mem_iff]
  · intro c d hc hd
    obtain ⟨page, hpage, hwindow, hfeedback, hwidgets⟩ := imports_of_compose hc
    obtain ⟨other, hother, hwindow', hfeedback', hwidgets'⟩ := imports_of_compose hd
    have hagree : c.program.imports.Agree d.program.imports := by
      rw [hpage, hother]
      refine Page.agree_imports (hwindow.trans hwindow'.symm) (hfeedback.trans hfeedback'.symm) ?_
      rw [hwidgets, hwidgets']
      exact horder.map _
    have hlines : importedLines c.source =
        c.program.imports.paths.map fun package => "\t\"" ++ package ++ "\"" :=
      Program.importedLines_source (hpage ▸ page.line_feed_not_mem_paths)
    have hlines' : importedLines d.source =
        d.program.imports.paths.map fun package => "\t\"" ++ package ++ "\"" :=
      Program.importedLines_source (hother ▸ other.line_feed_not_mem_paths)
    refine ⟨(Imports.same_iff _ _).mpr hagree, fun package => ?_, fun package symbol => ?_, ?_,
      hlines⟩
    · exact Bool.eq_iff_iff.mpr (hagree.packages package)
    · exact Bool.eq_iff_iff.mpr (hagree.symbols package symbol)
    · rw [hlines, hlines', hagree.paths_eq]

open Compilation in
/-- A button and an input field: which of them stands first decides in which order the symbols of
their package are seen. -/
theorem element_order_keeps_imports_swapped :
    ∃ c d,
      compose Translators.builtin
        { elements := [(Ui.Element.ofKind "button").withValue "Go", .ofKind "input"] } .empty =
          .ok c ∧
      compose Translators.builtin
        { elements := [.ofKind "input", (Ui.Element.ofKind "button").withValue "Go"] } .empty =
          .ok d ∧
      (c.program.imports.symbols "gioui.org/widget").toList = ["Clickable", "Editor"] ∧
      (d.program.imports.symbols "gioui.org/widget").toList = ["Editor", "Clickable"] ∧
      c.program.imports.same d.program.imports = true ∧
      importedLines c.source = importedLines d.source := by
  obtain ⟨hsame, _, _, hlines, _⟩ := (element_order_keeps_imports
    { elements := [(Ui.Element.ofKind "button").withValue "Go", .ofKind "input"] }
    [.ofKind "input", (Ui.Element.ofKind "button").withValue "Go"] .empty
    (List.Perm.swap _ _ _)).2 _ _ rfl rfl
  exact ⟨_, _, rfl, rfl, rfl, rfl, hsame, hlines⟩

end GioForge
