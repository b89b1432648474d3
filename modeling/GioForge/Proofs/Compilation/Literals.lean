import GioForge.Proofs.Compilation.PageLines

/-!
The string literals of a compiled program. Whatever characters the texts of a
document have, the program has one literal for each of them that stands for exactly
this text, in the order of the document, and no other literals but the paths of the
packages and the empty text that the last message is compared with.
-/

namespace GioForge

open Code Go

namespace Ui

def Graph.shownTitle (ui : Graph) : String :=
  match ui.window.bind WindowSpec.title with
  | some title => if Text.isBlankText title then "Untitled" else title
  | none => "Untitled"

/-- The texts that an element brings into the program: the message that it sets, if
it is a button whose action has one, and its value. -/
def Element.texts (relation : Relation.Graph) (e : Element) : List String :=
  (if e.kind? = some "button" then (e.action?.bind relation.lastMessage?).toList else []) ++
    [e.text?.getD ""]

end Ui

/-- The literals of lines are those of the first line, then those of the second, and
so on. -/
theorem Scans.literals_eq {lines : List Line} {tokens : List (List Token)}
    (h : Scans lines tokens) :
    literals (lines.flatMap Line.tokens) = tokens.flatMap literals := by
  rw [← literals_significant, h.significant_eq]
  unfold literals
  rw [List.filterMap_flatMap]
  apply List.flatMap_congr
  intro line _
  exact literals_significant line

def WindowOption.text? : WindowOption → Option String
  | .title text => some text
  | _ => none

theorem WindowOption.literals_tokens (option : WindowOption) :
    literals option.tokens = (option.text?.map utf8).toList := by
  cases option <;> rfl

/-- The title is the only text among the options of a window. -/
theorem Window.texts_options (ui : Ui.Graph) :
    (ofSpec ui.window).options.filterMap WindowOption.text? = [ui.shownTitle] := by
  have htitle : ((ui.window.getD {}).title.filter fun t => !Text.isBlankText t).getD
      defaultTitle = ui.shownTitle := by
    unfold Ui.Graph.shownTitle
    cases ui.window with
    | none => rfl
    | some spec =>
        cases htitle : spec.title with
        | none => simp [htitle, defaultTitle]
        | some title =>
            cases hblank : Text.isBlankText title <;>
              simp [htitle, hblank, defaultTitle, Option.filter]
  have hlengths : ∀ (size : Option Ui.Size) (option : Ui.Size → WindowOption),
      (∀ s, (option s).text? = none) →
      (size.map option).toList.filterMap WindowOption.text? = [] := by
    intro size option hoption
    cases size <;> simp [hoption]
  unfold ofSpec
  simp only [htitle, List.filterMap_append]
  rw [hlengths _ _ fun _ => rfl, hlengths _ _ fun _ => rfl]
  split <;> rfl

namespace Widget

def text : Widget → String
  | .label _ text => text
  | .heading _ text => text
  | .button _ _ text => text
  | .editor _ hint => hint

/-- The call of a widget holds one literal, the text that is shown. -/
theorem literals_tokens (w : Widget) : literals w.tokens = [utf8 w.text] := by
  cases w <;> rfl

/-- A reaction holds the message it sets, and nothing else in quotes. -/
theorem literals_reactionTokens (messageOf : String → Option String) (w : Widget) :
    (w.reactionTokens messageOf).flatMap literals = ((w.message? messageOf).map utf8).toList := by
  cases w with
  | button index action text =>
      simp only [reactionTokens, message?]
      cases action.bind messageOf <;> rfl
  | _ => rfl

/-- The texts of an element are those of the widget it describes. -/
theorem Describes.texts_eq {index : Nat} {e : Ui.Element} {w : Widget} (h : Describes index e w)
    (relation : Relation.Graph) :
    e.texts relation = (w.message? relation.lastMessage?).toList ++ [w.text] := by
  cases h with
  | label hkind htext => simp [Ui.Element.texts, hkind, htext, message?, text]
  | heading hkind htext => simp [Ui.Element.texts, hkind, htext, message?, text]
  | button hkind htext => simp [Ui.Element.texts, hkind, htext, message?, text]
  | editor hkind => simp [Ui.Element.texts, hkind, message?, text]

/-- The texts of the elements are those of the widgets, each with the message of its action. -/
theorem texts_of_describes {pairs : List (Ui.Element × Nat)} {widgets : List Widget}
    (h : List.Forall₂ (fun p w => Describes p.2 p.1 w) pairs widgets) (relation : Relation.Graph) :
    (pairs.map Prod.fst).flatMap (Ui.Element.texts relation) =
      widgets.flatMap fun w => (w.message? relation.lastMessage?).toList ++ [w.text] := by
  induction h with
  | nil => rfl
  | cons hfirst _ ih =>
      rw [List.map_cons, List.flatMap_cons, List.flatMap_cons, ih, hfirst.texts_eq relation]

end Widget

namespace Page

def texts (page : Page) : List String :=
  page.imports.paths ++ page.window.options.filterMap WindowOption.text? ++
    page.widgets.flatMap (fun w => (w.message? page.messageOf).toList ++ [w.text]) ++
    if page.feedback then [""] else []

theorem literals_stateTokens (page : Page) : page.stateTokens.flatMap literals = [] := by
  have htypes : (["widget.Clickable", "widget.Editor", "string"].all fun type =>
      (literals ((lex (" " ++ type)).getD [])).isEmpty) = true := rfl
  have hvariables : (page.state.map StateVariable.tokens).flatMap literals = [] := by
    rw [List.flatMap_eq_nil_iff]
    intro tokens htokens
    obtain ⟨v, hv, rfl⟩ := List.mem_map.mp htokens
    have htype := List.all_eq_true.mp htypes v.type (state_wellFormed hv).2
    exact List.isEmpty_iff.mp htype
  unfold stateTokens
  split
  · rfl
  · rw [List.flatMap_cons, hvariables]
    rfl

/-- The slots hold the texts in order, each behind its message. -/
theorem literals_flexTokens (page : Page) :
    page.flexTokens.flatMap literals =
      (page.widgets.flatMap (fun w => (w.message? page.messageOf).toList ++ [w.text]) ++
        if page.feedback then [""] else []).map utf8 := by
  have hstart : (scanned Program.slotStart).flatMap literals = [] := rfl
  have hend : (scanned Program.slotEnd).flatMap literals = [] := rfl
  have hnone : (scanned Program.flexNone).flatMap literals = [] := rfl
  have hopen : (scanned Program.flexOpen).flatMap literals = [] := rfl
  have hclose : (scanned Program.flexClose).flatMap literals = [] := rfl
  have hmessage : (scanned (Fragment.linesOf 6 Compilation.messageSlot)).flatMap literals =
      [utf8 ""] := rfl
  have hslots : page.slotTokens.flatMap (fun tokens => tokens.flatMap literals) =
      (page.widgets.flatMap (fun w => (w.message? page.messageOf).toList ++ [w.text]) ++
        if page.feedback then [""] else []).map utf8 := by
    unfold slotTokens
    rw [List.flatMap_append, List.map_append, List.flatMap_map, List.map_flatMap]
    congr 1
    · apply List.flatMap_congr
      intro w _
      rw [List.flatMap_append, List.flatMap_singleton, Widget.literals_reactionTokens,
        Widget.literals_tokens]
      cases w.message? page.messageOf <;> rfl
    · split
      · rw [List.flatMap_singleton, hmessage]
        rfl
      · rfl
  unfold flexTokens
  split
  · next hempty =>
      rw [List.isEmpty_iff.mp hempty] at hslots
      rw [hnone, ← hslots]
      rfl
  · rw [List.flatMap_append, List.flatMap_append, hopen, hclose, List.flatMap_assoc, ← hslots,
      List.nil_append, List.append_nil]
    apply List.flatMap_congr
    intro tokens _
    rw [List.flatMap_append, List.flatMap_append, hstart, hend, List.nil_append, List.append_nil]

/-- The literals of the program of a page are the texts of the page. -/
theorem literals_lineTokens (page : Page) :
    page.lineTokens.flatMap literals = page.texts.map utf8 := by
  have hhead : (scanned Program.headLines).flatMap literals = [] := rfl
  have hwindow : (scanned Program.windowLines).flatMap literals = [] := rfl
  have htheme : (scanned Program.themeLines).flatMap literals = [] := rfl
  have hframe : (scanned Program.frameLines).flatMap literals = [] := rfl
  have htail : (scanned Program.tailLines).flatMap literals = [] := rfl
  have hpaths : (page.imports.paths.map fun path => [Token.literal path (utf8 path)]).flatMap
      literals = page.imports.paths.map utf8 := by
    rw [List.flatMap_map, List.map_eq_flatMap]
    rfl
  have hoptions : (page.window.options.map WindowOption.tokens).flatMap literals =
      (page.window.options.filterMap WindowOption.text?).map utf8 := by
    rw [List.flatMap_map, List.map_filterMap, List.filterMap_eq_flatMap_toList]
    apply List.flatMap_congr
    intro option _
    exact option.literals_tokens
  unfold lineTokens texts
  simp only [List.flatMap_append, List.map_append, hhead, hwindow, htheme, hframe, htail, hpaths,
    hoptions, literals_stateTokens, literals_flexTokens, List.nil_append, List.append_nil,
    List.append_assoc]

end Page

/-- The literals of a compiled program are, in order, the paths of its imports, the
title of the window, the texts of the elements and, if there are handlers, an empty
text. Each literal stands for its text exactly. -/
theorem compiled_literals_are_the_texts (ui : Ui.Graph) (relation : Relation.Graph)
    {source : String} (h : compile ui (resolveActions relation) = .ok source) :
    ∃ (c : Compilation) (paths : List String) (tokens : List Token),
      Compilation.compose Translators.builtin ui (resolveActions relation) = .ok c ∧
      paths.Pairwise (· < ·) ∧
      (∀ package, package ∈ paths ↔ c.program.imports.hasPackage package = true) ∧
      lex source = some tokens ∧
      literals tokens = (paths ++ [ui.shownTitle] ++
        ui.elements.flatMap (Ui.Element.texts relation) ++
        if (resolveActions relation).isEmpty then [] else [""]).map utf8 := by
  obtain ⟨c, widgets, hc, hwidgets, hprogram, rfl⟩ := Compilation.page_of_compile h
  have helements := Widget.texts_of_describes hwidgets relation
  rw [List.zipIdx_map_fst] at helements
  refine ⟨c, c.program.imports.paths,
    (Page.of ui relation widgets).program.lines.flatMap Line.tokens, hc,
    c.program.imports.paths_pairwise, c.program.imports.mem_paths, Page.lex_source _, ?_⟩
  rw [(Page.scans_lines _).literals_eq, Page.literals_lineTokens, hprogram, helements,
    ← Window.texts_options ui]
  unfold Page.texts
  have hfeedback : (Page.of ui relation widgets).feedback = !(resolveActions relation).isEmpty :=
    rfl
  rw [hfeedback]
  cases (resolveActions relation).isEmpty <;> rfl

/-- Quotes, line feeds and comments in a title, a value and a message. -/
theorem compiled_literals_are_the_texts_hostile :
    ∃ source paths tokens,
      compile
        { window := some { title := some "a \"b\" \\" }
          elements := [(Ui.Element.ofKind "button").withValue "x // y\n" |>.withAction "go"] }
        (resolveActions ⟨[.of "go" (.text "\"); f(\"")]⟩) = .ok source ∧
      lex source = some tokens ∧
      literals tokens =
        (paths ++ ["a \"b\" \\", "\"); f(\"", "x // y\n", ""]).map utf8 := by
  obtain ⟨_, paths, tokens, _, _, _, hlex, htexts⟩ :=
    compiled_literals_are_the_texts
      { window := some { title := some "a \"b\" \\" }
        elements := [(Ui.Element.ofKind "button").withValue "x // y\n" |>.withAction "go"] }
      ⟨[.of "go" (.text "\"); f(\"")]⟩ rfl
  refine ⟨_, paths, tokens, rfl, hlex, ?_⟩
  rw [htexts, List.append_assoc, List.append_assoc]
  rfl

end GioForge
