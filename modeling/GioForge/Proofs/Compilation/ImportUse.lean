import GioForge.Proofs.Compilation.PageSelectors

/-!
The imports of a compiled program and its selectors. What is imported is declared
apart from the text that uses it: by the baseline, by the options of the window, by
each widget and for the message. Both directions are proved line by line. A selector
on any line has the package it needs among the imports, and for every package there
is a line with a selector that needs it.
-/

namespace GioForge

open Code Go

namespace Page

/-- The selector selects from a variable or from a package that is imported for it. -/
def Resolves (page : Page) (selector : String × String) : Prop :=
  selector.1 ∈ Program.localNames ∨ selector.1 ∈ page.state.map StateVariable.name ∨
    ∃ package, lastSegment package = selector.1 ∧
      page.imports.hasSymbol package selector.2 = true

/-- The fixed parts of the program select only from packages that are always imported. -/
theorem resolves_of_fixed {page : Page} {tokens : List Token} {selector : String × String}
    (h : tokens ∈ Program.fixedTokens) (hselector : selector ∈ selectors tokens) :
    page.Resolves selector := by
  have hall : ∀ selector ∈ Program.constantSelectors ++ Program.slotSelectors,
      selector.1 ∈ Program.localNames ∨
        ∃ package ∈ packages, lastSegment package = selector.1 ∧
          (Program.baselineImports.hasSymbol package selector.2 = true ∨
            package = "gioui.org/app" ∧ selector.2 = "Window") := by
    decide +kernel
  have hmem : selector ∈ Program.fixedTokens.flatMap selectors :=
    List.mem_flatMap.mpr ⟨tokens, h, hselector⟩
  rw [Program.selectors_fixedTokens] at hmem
  rcases hall selector hmem with hlocal | ⟨package, _, hsegment, hsymbol⟩
  · exact Or.inl hlocal
  · refine Or.inr (Or.inr ⟨package, hsegment, (page.hasSymbol_imports _ _).mpr ?_⟩)
    rcases hsymbol with hbaseline | hwindow
    · exact Or.inl hbaseline
    · exact Or.inr (Or.inl ((page.window.hasSymbol_imports _ _).mpr (Or.inl hwindow)))

theorem resolves_of_option {page : Page} {option : WindowOption} {selector : String × String}
    (h : option ∈ page.window.options) (hselector : selector ∈ selectors option.tokens) :
    page.Resolves selector := by
  have hwindow : ∀ package symbol, page.window.imports.hasSymbol package symbol = true →
      page.imports.hasSymbol package symbol = true := by
    intro package symbol hsymbol
    exact (page.hasSymbol_imports _ _).mpr (Or.inr (Or.inl hsymbol))
  rw [option.selectors_tokens] at hselector
  rcases List.mem_cons.mp hselector with rfl | hlengths
  · refine Or.inr (Or.inr ⟨"gioui.org/app", rfl, hwindow _ _ ?_⟩)
    exact (page.window.hasSymbol_imports _ _).mpr (Or.inr ⟨option, h, Or.inl ⟨rfl, rfl⟩⟩)
  · split at hlengths
    · next hhas =>
        obtain rfl : selector = ("unit", "Dp") := by simpa using hlengths
        refine Or.inr (Or.inr ⟨"gioui.org/unit", rfl, hwindow _ _ ?_⟩)
        exact (page.window.hasSymbol_imports _ _).mpr
          (Or.inr ⟨option, h, Or.inr ⟨hhas, rfl, rfl⟩⟩)
    · cases hlengths

theorem hasSymbol_of_widget {page : Page} {w : Widget} (h : w ∈ page.widgets)
    {package symbol : String} (hsymbol : w.component.imports.hasSymbol package symbol = true) :
    page.imports.hasSymbol package symbol = true :=
  (page.hasSymbol_imports _ _).mpr (Or.inr (Or.inr (Or.inl ⟨w, h, hsymbol⟩)))

theorem resolves_of_declaration {page : Page} {v : StateVariable} {selector : String × String}
    (h : v ∈ page.state) (hselector : selector ∈ selectors v.tokens) :
    page.Resolves selector := by
  rcases (page.mem_state v).mp h with ⟨index, _, _, hw, rfl⟩ | ⟨index, _, hw, rfl⟩ | ⟨_, rfl⟩
  · rw [StateVariable.tokens_clickable] at hselector
    obtain rfl : selector = ("widget", "Clickable") := List.mem_singleton.mp hselector
    refine Or.inr (Or.inr ⟨"gioui.org/widget", rfl, hasSymbol_of_widget hw ?_⟩)
    simp [Widget.component, Imports.hasSymbol_add, Component.widgetPackage]
  · rw [StateVariable.tokens_editor] at hselector
    obtain rfl : selector = ("widget", "Editor") := List.mem_singleton.mp hselector
    refine Or.inr (Or.inr ⟨"gioui.org/widget", rfl, hasSymbol_of_widget hw ?_⟩)
    simp [Widget.component, Imports.hasSymbol_add, Component.widgetPackage]
  · rw [StateVariable.tokens_string] at hselector
    cases hselector

theorem resolves_of_reaction {page : Page} {w : Widget} {tokens : List Token}
    {selector : String × String} (h : w ∈ page.widgets)
    (htokens : tokens ∈ w.reactionTokens page.messageOf)
    (hselector : selector ∈ selectors tokens) : page.Resolves selector := by
  obtain ⟨index, action, text, rfl, rfl | ⟨_, rfl⟩ | rfl⟩ := Widget.mem_reactionTokens htokens
  · obtain rfl : selector = (Widget.buttonName index, "Clicked") :=
      List.mem_singleton.mp hselector
    have hvariable : ⟨Widget.buttonName index, "widget.Clickable"⟩ ∈ page.state :=
      (page.mem_state _).mpr (Or.inl ⟨index, action, text, h, rfl⟩)
    exact Or.inr (Or.inl (List.mem_map_of_mem hvariable))
  · cases hselector
  · cases hselector

theorem resolves_of_widget {page : Page} {w : Widget} {selector : String × String}
    (h : w ∈ page.widgets) (hselector : selector ∈ selectors w.tokens) :
    page.Resolves selector := by
  have himported : ∃ package, lastSegment package = selector.1 ∧
      w.component.imports.hasSymbol package selector.2 = true := by
    rw [w.selectors_tokens] at hselector
    cases w with
    | label size text =>
        rcases List.mem_pair.mp hselector with rfl | rfl
        · refine ⟨Component.materialPackage, rfl, ?_⟩
          simp [Widget.component, Imports.hasSymbol_add]
        · refine ⟨"gioui.org/unit", rfl, ?_⟩
          simp [Widget.component, Imports.hasSymbol_add]
    | _ =>
        obtain rfl := List.mem_singleton.mp hselector
        refine ⟨Component.materialPackage, rfl, ?_⟩
        simp [Widget.component, Imports.hasSymbol_add]
  obtain ⟨package, hsegment, hsymbol⟩ := himported
  exact Or.inr (Or.inr ⟨package, hsegment, hasSymbol_of_widget h hsymbol⟩)

theorem resolves_of_message {page : Page} {tokens : List Token} {selector : String × String}
    (h : page.feedback = true)
    (htokens : tokens ∈ scanned (Fragment.linesOf 6 Compilation.messageSlot))
    (hselector : selector ∈ selectors tokens) : page.Resolves selector := by
  have hmem := List.mem_flatMap.mpr ⟨tokens, htokens, hselector⟩
  rw [Program.selectors_messageSlot] at hmem
  rcases List.mem_pair.mp hmem with rfl | rfl
  · refine Or.inr (Or.inr ⟨"gioui.org/layout", rfl, (page.hasSymbol_imports _ _).mpr ?_⟩)
    exact Or.inl (by decide)
  · refine Or.inr (Or.inr ⟨Component.materialPackage, rfl,
      (page.hasSymbol_imports _ _).mpr ?_⟩)
    exact Or.inr (Or.inr (Or.inr ⟨h, rfl, rfl⟩))

/-- Whatever a page writes, it imports what it selects. -/
theorem Written.resolves {page : Page} {tokens : List Token} {selector : String × String}
    (h : page.Written tokens) (hselector : selector ∈ selectors tokens) :
    page.Resolves selector := by
  cases h with
  | fixed h => exact resolves_of_fixed h hselector
  | path path => cases hselector
  | option h => exact resolves_of_option h hselector
  | declaration h => exact resolves_of_declaration h hselector
  | reaction h htokens => exact resolves_of_reaction h htokens hselector
  | widget h => exact resolves_of_widget h hselector
  | message h htokens => exact resolves_of_message h htokens hselector

def Selects (page : Page) (selector : String × String) : Prop :=
  ∃ tokens ∈ page.lineTokens, selector ∈ selectors tokens

theorem selects_of_slot {page : Page} {slot : List (List Token)} {tokens : List Token}
    {selector : String × String} (hslot : slot ∈ page.slotTokens) (htokens : tokens ∈ slot)
    (hselector : selector ∈ selectors tokens) : page.Selects selector := by
  have hsome : page.slotTokens.isEmpty = false := by
    rw [Bool.eq_false_iff]
    intro hempty
    rw [List.isEmpty_iff.mp hempty] at hslot
    cases hslot
  have hflex : tokens ∈ page.flexTokens := by
    unfold flexTokens
    rw [if_neg (by simp [hsome])]
    apply List.mem_append_left
    apply List.mem_append_right
    apply List.mem_flatMap.mpr
    exact ⟨slot, hslot, by simp [htokens]⟩
  exact ⟨tokens, by simp [lineTokens, hflex], hselector⟩

theorem selects_of_widget {page : Page} {w : Widget} {selector : String × String}
    (h : w ∈ page.widgets) (hselector : selector ∈ w.symbols) : page.Selects selector := by
  have hslot : w.reactionTokens page.messageOf ++ [w.tokens] ∈ page.slotTokens :=
    List.mem_append_left _ (List.mem_map.mpr ⟨w, h, rfl⟩)
  rw [← w.selectors_tokens] at hselector
  exact selects_of_slot hslot (by simp) hselector

theorem selects_of_declaration {page : Page} {v : StateVariable} {selector : String × String}
    (h : v ∈ page.state) (hselector : selector ∈ selectors v.tokens) :
    page.Selects selector := by
  have htokens : v.tokens ∈ page.stateTokens := by
    unfold stateTokens
    rw [if_neg]
    · exact List.mem_cons_of_mem _ (List.mem_map_of_mem h)
    · intro hempty
      rw [List.isEmpty_iff.mp hempty] at h
      cases h
  exact ⟨v.tokens, by simp [lineTokens, htokens], hselector⟩

theorem selects_of_option {page : Page} {option : WindowOption} {selector : String × String}
    (h : option ∈ page.window.options) (hselector : selector ∈ selectors option.tokens) :
    page.Selects selector := by
  have htokens : option.tokens ∈ page.window.options.map WindowOption.tokens :=
    List.mem_map_of_mem h
  exact ⟨option.tokens, by simp [lineTokens, htokens], hselector⟩

theorem selects_constant {page : Page} {selector : String × String}
    (h : selector ∈ Program.constantSelectors) : page.Selects selector := by
  rw [← Program.selectors_constantTokens] at h
  obtain ⟨tokens, htokens, hselector⟩ := List.mem_flatMap.mp h
  simp only [Program.constantTokens, List.mem_append, or_assoc] at htokens
  refine ⟨tokens, ?_, hselector⟩
  rcases htokens with hin | hin | hin | hin | hin
  all_goals simp [lineTokens, hin]

theorem selects_flex (page : Page) : page.Selects ("layout", "Flex") := by
  have hnone : (scanned Program.flexNone).flatMap selectors =
      [("layout", "Flex"), ("layout", "Vertical")] := rfl
  have hopen : (scanned Program.flexOpen).flatMap selectors =
      [("layout", "Flex"), ("layout", "Vertical")] := rfl
  have hflex : ("layout", "Flex") ∈ page.flexTokens.flatMap selectors := by
    unfold flexTokens
    split
    · rw [hnone]
      exact List.mem_cons_self
    · rw [List.flatMap_append, List.flatMap_append, hopen]
      exact List.mem_append_left _ (List.mem_append_left _ List.mem_cons_self)
  obtain ⟨tokens, htokens, hselector⟩ := List.mem_flatMap.mp hflex
  exact ⟨tokens, by simp [lineTokens, htokens], hselector⟩

theorem selects_message {page : Page} (h : page.feedback = true) :
    page.Selects ("material", "Body1") := by
  have hmessage : ("material", "Body1") ∈
      (scanned (Fragment.linesOf 6 Compilation.messageSlot)).flatMap selectors := by
    rw [Program.selectors_messageSlot]
    exact List.mem_cons_of_mem _ List.mem_cons_self
  obtain ⟨tokens, htokens, hselector⟩ := List.mem_flatMap.mp hmessage
  have hslot : scanned (Fragment.linesOf 6 Compilation.messageSlot) ∈ page.slotTokens := by
    apply List.mem_append_right
    rw [if_pos h]
    exact List.mem_singleton_self _
  exact selects_of_slot hslot htokens hselector

/-- Of every package of the baseline one symbol is used in all programs. -/
theorem selects_of_baseline (page : Page) {package symbol : String}
    (h : Program.baselineImports.hasSymbol package symbol = true) :
    ∃ name, Program.baselineImports.hasSymbol package name = true ∧
      page.Selects (lastSegment package, name) := by
  have hpackage : package ∈ ["os", "gioui.org/app", "gioui.org/op", "gioui.org/op/paint",
      "gioui.org/widget/material"] ∨ package = "gioui.org/layout" := by
    simp only [Program.baselineImports, Imports.hasSymbol_add, Imports.hasSymbol_addAll,
      Imports.hasSymbol_empty] at h
    simp only [List.mem_cons]
    tauto
  rcases hpackage with hpackage | rfl
  · have hall : ∀ package ∈ ["os", "gioui.org/app", "gioui.org/op", "gioui.org/op/paint",
        "gioui.org/widget/material"],
        ∃ selector ∈ Program.constantSelectors, selector.1 = lastSegment package ∧
          Program.baselineImports.hasSymbol package selector.2 = true := by
      decide +kernel
    obtain ⟨⟨qualifier, name⟩, hmem, rfl, hsymbol⟩ := hall package hpackage
    exact ⟨name, hsymbol, selects_constant hmem⟩
  · exact ⟨"Flex", by decide, page.selects_flex⟩

/-- What the window imports one of its options selects. -/
theorem selects_of_window {page : Page} {package symbol : String}
    (h : page.window.imports.hasSymbol package symbol = true) :
    page.Selects (lastSegment package, symbol) := by
  rcases (page.window.hasSymbol_imports _ _).mp h with
    ⟨rfl, rfl⟩ | ⟨option, hoption, ⟨rfl, rfl⟩ | ⟨hlengths, rfl, rfl⟩⟩
  · exact selects_constant List.mem_cons_self
  · apply selects_of_option hoption
    rw [option.selectors_tokens]
    exact List.mem_cons_self
  · apply selects_of_option hoption
    rw [option.selectors_tokens, if_pos hlengths]
    exact List.mem_cons_of_mem _ List.mem_cons_self

/-- What a component imports its slot or its variable selects. -/
theorem selects_of_component {page : Page} {w : Widget} (hw : w ∈ page.widgets)
    {package symbol : String} (h : w.component.imports.hasSymbol package symbol = true) :
    page.Selects (lastSegment package, symbol) := by
  cases w with
  | label size text =>
      simp only [Widget.component, Imports.hasSymbol_add, Imports.hasSymbol_empty] at h
      rcases h with ⟨rfl, rfl⟩ | ⟨rfl, rfl⟩ | h
      · exact selects_of_widget hw (List.mem_cons_of_mem _ List.mem_cons_self)
      · exact selects_of_widget hw List.mem_cons_self
      · cases h
  | heading level text =>
      simp only [Widget.component, Imports.hasSymbol_add, Imports.hasSymbol_empty] at h
      rcases h with ⟨rfl, rfl⟩ | h
      · exact selects_of_widget hw List.mem_cons_self
      · cases h
  | button index action text =>
      simp only [Widget.component, Imports.hasSymbol_add, Imports.hasSymbol_empty] at h
      rcases h with ⟨rfl, rfl⟩ | ⟨rfl, rfl⟩ | h
      · exact selects_of_widget hw List.mem_cons_self
      · apply selects_of_declaration
          ((page.mem_state _).mpr (Or.inl ⟨index, action, text, hw, rfl⟩))
        rw [StateVariable.tokens_clickable]
        exact List.mem_cons_self
      · cases h
  | editor index hint =>
      simp only [Widget.component, Imports.hasSymbol_add, Imports.hasSymbol_empty] at h
      rcases h with ⟨rfl, rfl⟩ | ⟨rfl, rfl⟩ | h
      · exact selects_of_widget hw List.mem_cons_self
      · apply selects_of_declaration
          ((page.mem_state _).mpr (Or.inr (Or.inl ⟨index, hint, hw, rfl⟩)))
        rw [StateVariable.tokens_editor]
        exact List.mem_cons_self
      · cases h

/-- From every package that is imported a symbol is selected for which it is imported. -/
theorem selects_of_hasPackage {page : Page} {package : String}
    (h : page.imports.hasPackage package = true) :
    ∃ name, page.imports.hasSymbol package name = true ∧
      page.Selects (lastSegment package, name) := by
  obtain ⟨symbol, hsymbol⟩ := page.eachUsed_imports package h
  rcases (page.hasSymbol_imports _ _).mp hsymbol with
    hbaseline | hwindow | ⟨w, hw, hwidget⟩ | ⟨hfeedback, rfl, rfl⟩
  · obtain ⟨name, hname, hselects⟩ := page.selects_of_baseline hbaseline
    exact ⟨name, (page.hasSymbol_imports _ _).mpr (Or.inl hname), hselects⟩
  · exact ⟨symbol, hsymbol, selects_of_window hwindow⟩
  · exact ⟨symbol, hsymbol, selects_of_component hw hwidget⟩
  · exact ⟨"Body1", hsymbol, selects_message hfeedback⟩

/-- The import block that is read from the tokens holds the packages of the page. -/
theorem importBlock_lines (page : Page) :
    importBlock (page.program.lines.flatMap Line.tokens) = page.imports.paths.map utf8 := by
  have hhead : (scanned Program.headLines).flatMap significant =
      [.word "package", .word "main"] ++ [.word "import", .mark '('] := rfl
  have hclose : ((scanned Program.windowLines).flatMap significant).head? =
      some (.mark ')') := rfl
  obtain ⟨after, hafter⟩ := List.head?_eq_some_iff.mp hclose
  have hpaths : (page.imports.paths.map fun path => [Token.literal path (utf8 path)]).flatMap
      significant = page.imports.paths.map fun path => Token.literal path (utf8 path) := by
    rw [List.flatMap_map, List.map_eq_flatMap]
    rfl
  have hbefore : Token.word "import" ∉ [Token.word "package", .word "main"] := by decide
  have hlines : page.lineTokens = scanned Program.headLines ++
      (page.imports.paths.map (fun path => [Token.literal path (utf8 path)]) ++
        (scanned Program.windowLines ++ (page.window.options.map WindowOption.tokens ++
          scanned Program.themeLines ++ page.stateTokens ++ scanned Program.frameLines ++
          page.flexTokens ++ scanned Program.tailLines))) := by
    simp only [lineTokens, List.append_assoc]
  have hsignificant := page.scans_lines.significant_eq
  rw [hlines, List.flatMap_append, List.flatMap_append, List.flatMap_append, hhead, hpaths,
    hafter, List.append_assoc] at hsignificant
  exact importBlock_of_significant hsignificant hbefore

theorem utf8_paths_pairwise (page : Page) :
    (page.imports.paths.map utf8).Pairwise (· < ·) :=
  page.imports.utf8_paths_pairwise

/-- No variable is named as a package. -/
theorem lastSegment_ne_variable {page : Page} {package : String} (h : package ∈ packages) :
    lastSegment package ∉ Program.localNames ∧
      lastSegment package ∉ page.state.map StateVariable.name := by
  have hall : ∀ package ∈ packages, lastSegment package ∉ Program.localNames ∧
      (lastSegment package).toList.head? ≠ some 'b' ∧
      (lastSegment package).toList.head? ≠ some 'i' ∧ lastSegment package ≠ messageVariable := by
    decide +kernel
  obtain ⟨hlocal, hbutton, heditor, hmessage⟩ := hall package h
  refine ⟨hlocal, ?_⟩
  intro hmem
  obtain ⟨v, hv, hname⟩ := List.mem_map.mp hmem
  rw [← hname] at hbutton heditor hmessage
  rcases (page.mem_state v).mp hv with ⟨index, _, _, _, rfl⟩ | ⟨index, _, _, rfl⟩ | ⟨_, rfl⟩
  · exact hbutton (by simp [Widget.buttonName])
  · exact heditor (by simp [Widget.editorName])
  · exact hmessage rfl

end Page

/-- In a compiled program every selector that does not begin with a variable has its
package in the import block, with the symbol it selects; every package in the import
block has such a selector; and the block is in strictly increasing order. -/
theorem imports_agree_with_uses (ui : Ui.Graph) (relation : Relation.Graph) {source : String}
    (h : compile ui (resolveActions relation) = .ok source) :
    ∃ (c : Compilation) (tokens : List Token),
      Compilation.compose Translators.builtin ui (resolveActions relation) = .ok c ∧
      lex source = some tokens ∧
      (∀ qualifier name, (qualifier, name) ∈ selectors tokens →
        qualifier ∉ ["w", "th", "e", "gtx"] →
        qualifier ∉ c.program.state.map StateVariable.name →
        ∃ package, utf8 package ∈ importBlock tokens ∧ lastSegment package = qualifier ∧
          c.program.imports.hasSymbol package name = true) ∧
      (∀ path ∈ importBlock tokens, ∃ package name, utf8 package = path ∧
        (lastSegment package, name) ∈ selectors tokens ∧
        lastSegment package ∉ ["w", "th", "e", "gtx"] ∧
        lastSegment package ∉ c.program.state.map StateVariable.name ∧
        c.program.imports.hasSymbol package name = true) ∧
      (importBlock tokens).Pairwise (· < ·) := by
  obtain ⟨c, widgets, hc, _, hprogram, rfl⟩ := Compilation.page_of_compile h
  refine ⟨c, _, hc, (Page.of ui relation widgets).lex_source, ?_, ?_, ?_⟩
  · intro qualifier name hselector hlocal hvariable
    rw [Page.selectors_lines, List.mem_flatMap] at hselector
    obtain ⟨tokens, htokens, hselector⟩ := hselector
    rw [hprogram] at hvariable ⊢
    rcases (Page.written_of_mem htokens).resolves hselector with
      hin | hin | ⟨package, hsegment, hsymbol⟩
    · exact absurd hin hlocal
    · exact absurd hin hvariable
    · refine ⟨package, ?_, hsegment, hsymbol⟩
      rw [Page.importBlock_lines]
      apply List.mem_map_of_mem
      exact (Imports.mem_paths _ _).mpr (Imports.hasPackage_of_hasSymbol hsymbol)
  · intro path hpath
    rw [Page.importBlock_lines] at hpath
    obtain ⟨package, hpackage, rfl⟩ := List.mem_map.mp hpath
    have himported := (Imports.mem_paths _ _).mp hpackage
    obtain ⟨name, hsymbol, tokens, htokens, hselector⟩ := Page.selects_of_hasPackage himported
    obtain ⟨hlocal, hvariable⟩ := Page.lastSegment_ne_variable (Page.mem_packages himported)
    rw [hprogram]
    refine ⟨package, name, rfl, ?_, hlocal, hvariable, hsymbol⟩
    rw [Page.selectors_lines]
    exact List.mem_flatMap.mpr ⟨tokens, htokens, hselector⟩
  · rw [Page.importBlock_lines]
    exact Page.utf8_paths_pairwise _

/-- A heading and an input field: each package they import is used. -/
theorem imports_agree_with_uses_heading_input :
    ∃ source tokens,
      compile { elements := [(Ui.Element.ofKind "heading").withValue "Name", .ofKind "input"] }
        (resolveActions ⟨[]⟩) = .ok source ∧
      lex source = some tokens ∧
      (∀ path ∈ importBlock tokens, ∃ package name, utf8 package = path ∧
        (lastSegment package, name) ∈ selectors tokens) ∧
      (importBlock tokens).Pairwise (· < ·) := by
  obtain ⟨_, tokens, _, hlex, _, hused, hsorted⟩ := imports_agree_with_uses
    { elements := [(Ui.Element.ofKind "heading").withValue "Name", .ofKind "input"] } ⟨[]⟩ rfl
  refine ⟨_, tokens, rfl, hlex, ?_, hsorted⟩
  intro path hpath
  obtain ⟨package, name, hpackage, hselector, _⟩ := hused path hpath
  exact ⟨package, name, hpackage, hselector⟩

end GioForge
