import GioForge.Proofs.Code.Imports
import GioForge.Proofs.Compilation.Page

/-!
What a page imports. The baseline, the options of the window, the widgets and the
message each ask for their packages and symbols on their own; here it is said once
what all of them together amount to.
-/

namespace GioForge

open Code

namespace Window

/-- The symbols that the options of a window ask for. -/
theorem hasSymbol_imports (window : Window) (package symbol : String) :
    window.imports.hasSymbol package symbol = true ↔
      package = "gioui.org/app" ∧ symbol = "Window" ∨
      ∃ option ∈ window.options, package = "gioui.org/app" ∧ symbol = option.symbol ∨
        option.hasLengths = true ∧ package = "gioui.org/unit" ∧ symbol = "Dp" := by
  unfold imports
  have hfold : ∀ (options : List WindowOption) (start : Imports),
      (options.foldl (fun all option =>
        if option.hasLengths then
          (all.add "gioui.org/app" option.symbol).add "gioui.org/unit" "Dp"
        else all.add "gioui.org/app" option.symbol) start).hasSymbol package symbol = true ↔
      start.hasSymbol package symbol = true ∨
        ∃ option ∈ options, package = "gioui.org/app" ∧ symbol = option.symbol ∨
          option.hasLengths = true ∧ package = "gioui.org/unit" ∧ symbol = "Dp" := by
    intro options
    induction options with
    | nil => simp
    | cons option rest ih =>
        intro start
        rw [List.foldl_cons, ih]
        cases hlengths : option.hasLengths
        · simp [hlengths, Imports.hasSymbol_add, or_assoc, or_left_comm]
        · simp only [hlengths, if_true, Imports.hasSymbol_add, List.mem_cons,
            exists_eq_or_imp, true_and]
          tauto
  rw [hfold, Imports.hasSymbol_add, Imports.hasSymbol_empty]
  simp

theorem eachUsed_imports (window : Window) : window.imports.EachUsed := by
  unfold imports
  have hfold : ∀ (options : List WindowOption) (start : Imports), start.EachUsed →
      (options.foldl (fun all option =>
        if option.hasLengths then
          (all.add "gioui.org/app" option.symbol).add "gioui.org/unit" "Dp"
        else all.add "gioui.org/app" option.symbol) start).EachUsed := by
    intro options
    induction options with
    | nil => exact fun start hstart => hstart
    | cons option rest ih =>
        intro start hstart
        apply ih
        dsimp only
        split
        · exact (hstart.add _ _).add _ _
        · exact hstart.add _ _
  exact hfold window.options _ (Imports.eachUsed_empty.add _ _)

end Window

namespace Page

theorem hasSymbol_imports (page : Page) (package symbol : String) :
    page.imports.hasSymbol package symbol = true ↔
      Program.baselineImports.hasSymbol package symbol = true ∨
      page.window.imports.hasSymbol package symbol = true ∨
      (∃ w ∈ page.widgets, w.component.imports.hasSymbol package symbol = true) ∨
      page.feedback = true ∧ package = Component.materialPackage ∧ symbol = "Body1" := by
  have hmerged := Imports.hasSymbol_foldl_merge (fun w : Widget => w.component.imports)
    page.widgets (Program.baselineImports.merge page.window.imports) package symbol
  rw [Imports.hasSymbol_merge] at hmerged
  unfold imports
  cases page.feedback
  · simpa [or_assoc] using hmerged
  · simp only [if_true, Imports.hasSymbol_add, hmerged, true_and]
    rw [or_comm, or_assoc, or_assoc]

/-- No package is imported without a symbol of it. -/
theorem eachUsed_imports (page : Page) : page.imports.EachUsed := by
  have hbaseline : Program.baselineImports.EachUsed :=
    (((((Imports.eachUsed_empty.add _ _).addAll _ _).addAll _ _).add _ _).add _ _).add _ _
  have hwidget : ∀ w : Widget, w.component.imports.EachUsed := by
    intro w
    cases w with
    | label size text => exact (Imports.eachUsed_empty.add _ _).add _ _
    | heading level text => exact Imports.eachUsed_empty.add _ _
    | button index action text => exact (Imports.eachUsed_empty.add _ _).add _ _
    | editor index hint => exact (Imports.eachUsed_empty.add _ _).add _ _
  have hmerged := (hbaseline.merge page.window.eachUsed_imports).foldl_merge
    fun w (_ : w ∈ page.widgets) => hwidget w
  unfold imports
  split
  · exact hmerged.add _ _
  · exact hmerged

def packages : List String :=
  ["gioui.org/app", "gioui.org/layout", "gioui.org/op", "gioui.org/op/paint", "gioui.org/unit",
    "gioui.org/widget", "gioui.org/widget/material", "os"]

theorem mem_packages {page : Page} {package : String}
    (h : page.imports.hasPackage package = true) : package ∈ packages := by
  obtain ⟨symbol, hsymbol⟩ := page.eachUsed_imports package h
  rcases (page.hasSymbol_imports package symbol).mp hsymbol with
    hbase | hwindow | hwidget | hmessage
  · simp only [Program.baselineImports, Imports.hasSymbol_add, Imports.hasSymbol_addAll,
      Imports.hasSymbol_empty] at hbase
    simp only [packages, List.mem_cons]
    tauto
  · rw [Window.hasSymbol_imports] at hwindow
    rcases hwindow with ⟨rfl, _⟩ | ⟨option, _, ⟨rfl, _⟩ | ⟨_, rfl, _⟩⟩ <;> decide
  · obtain ⟨w, _, hw⟩ := hwidget
    cases w with
    | _ =>
        simp only [Widget.component, Imports.hasSymbol_add, Imports.hasSymbol_empty,
          Component.materialPackage, Component.widgetPackage] at hw
        simp only [packages, List.mem_cons]
        tauto
  · rw [hmessage.2.1]
    decide

end Page

end GioForge
