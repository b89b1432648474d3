import GioForge.Proofs.Compilation.PageLines

/-!
What is left of a program when its literals are emptied. Emptying them comes to the
same as emptying the texts of the page that the program is made from, so two
documents that differ only in their texts give programs that differ only inside
their literals.
-/

namespace GioForge

open Code Go

namespace Go

def Token.emptied : Token → Token
  | .literal _ _ => .literal "" []
  | token => token

/-- The text with nothing inside its literals, if it can be scanned. -/
def eraseLiterals (source : String) : Option String :=
  (lex source).map fun tokens =>
    String.ofList ((tokens.map Token.emptied).flatMap Token.spelling)

theorem isEmpty_of_lex {text : String} {tokens : List Token} (h : lex text = some tokens) :
    text.isEmpty = tokens.isEmpty := by
  cases tokens with
  | nil =>
      have hchars : [] = text.toList := spelling_lex h
      have hempty : text = "" := String.toList_eq_nil_iff.mp hchars.symm
      rw [hempty]
      rfl
  | cons token rest =>
      rw [List.isEmpty_cons, Bool.eq_false_iff]
      intro hempty
      rw [String.isEmpty_iff.mp hempty] at h
      exact absurd h (by simp [lex, transduce, State.flush])

end Go

namespace Code.Line

def emptied (line : Line) : List Token :=
  line.tokens.map Token.emptied

/-- Lines with the same tokens up to the contents of literals are the same once these are
emptied. -/
theorem emptied_eq {level : Nat} {first second : String} {tokens more : List Token}
    (hfirst : lex first = some tokens) (hsecond : lex second = some more)
    (h : tokens.map Token.emptied = more.map Token.emptied) :
    emptied ⟨level, first⟩ = emptied ⟨level, second⟩ := by
  have htexts : first.isEmpty = second.isEmpty := by
    rw [isEmpty_of_lex hfirst, isEmpty_of_lex hsecond]
    simpa using congrArg List.isEmpty h
  unfold emptied Line.tokens
  simp only [hfirst, hsecond, htexts, Option.getD_some, List.map_append, h]

end Code.Line

/-- Erasing the literals of the source is erasing those of its lines. -/
theorem Page.eraseLiterals_source (page : Page) :
    eraseLiterals page.program.source =
      some (String.ofList ((page.program.lines.flatMap Line.emptied).flatMap Token.spelling)) := by
  unfold eraseLiterals
  rw [page.lex_source, Option.map_some, List.map_flatMap]
  rfl

def WindowOption.hollow : WindowOption → WindowOption
  | .title _ => .title ""
  | option => option

def Window.hollow (window : Window) : Window :=
  { window with options := window.options.map WindowOption.hollow }

def Widget.hollow : Widget → Widget
  | .label size _ => .label size ""
  | .heading level _ => .heading level ""
  | .button index action _ => .button index action ""
  | .editor index _ => .editor index ""

def Page.hollow (page : Page) : Page :=
  { window := page.window.hollow
    widgets := page.widgets.map Widget.hollow
    messageOf := fun action => (page.messageOf action).map fun _ => ""
    feedback := page.feedback }

theorem WindowOption.emptied_hollow (option : WindowOption) (level : Nat) :
    Line.emptied ⟨level, option.hollow.expression ++ ","⟩ =
      Line.emptied ⟨level, option.expression ++ ","⟩ := by
  apply Line.emptied_eq option.hollow.lex_expression option.lex_expression
  cases option with
  | title text => simp [hollow, tokens, Token.emptied]
  | _ => rfl

theorem Window.imports_hollow (window : Window) : window.hollow.imports = window.imports := by
  have hsymbol : ∀ option : WindowOption, option.hollow.symbol = option.symbol := by
    intro option
    cases option <;> rfl
  have hlengths : ∀ option : WindowOption, option.hollow.hasLengths = option.hasLengths := by
    intro option
    cases option <;> rfl
  unfold Window.imports Window.hollow
  simp only [List.foldl_map, hsymbol, hlengths]

namespace Widget

theorem imports_hollow (w : Widget) : w.hollow.component.imports = w.component.imports := by
  cases w <;> rfl

theorem state_hollow (w : Widget) : w.hollow.component.state = w.component.state := by
  cases w <;> rfl

theorem emptied_layOut (w : Widget) (level : Nat) :
    (Fragment.linesOf level (Component.layOut w.hollow.call)).flatMap Line.emptied =
      (Fragment.linesOf level (Component.layOut w.call)).flatMap Line.emptied := by
  have hline : Line.emptied ⟨level, "return material." ++ w.hollow.call ++ ".Layout(gtx)"⟩ =
      Line.emptied ⟨level, "return material." ++ w.call ++ ".Layout(gtx)"⟩ := by
    apply Line.emptied_eq w.hollow.lex_layOut w.lex_layOut
    cases w <;> simp [hollow, tokens, callTokens, Token.emptied]
  exact congrArg (· ++ []) hline

theorem emptied_reaction (messageOf : String → Option String) (w : Widget) (level : Nat) :
    (Fragment.linesOf level
        (w.hollow.reaction fun action => (messageOf action).map fun _ => "")).flatMap
        Line.emptied =
      (Fragment.linesOf level (w.reaction messageOf)).flatMap Line.emptied := by
  cases w with
  | button index action text =>
      have hmessage : (action.bind fun id => (messageOf id).map fun _ => "") =
          (action.bind messageOf).map fun _ => "" := by
        cases action <;> rfl
      simp only [hollow, reaction, hmessage]
      cases action.bind messageOf with
      | none => rfl
      | some message =>
          have hline : Line.emptied ⟨level + 1, Response.setMessage ""⟩ =
              Line.emptied ⟨level + 1, Response.setMessage message⟩ := by
            apply Line.emptied_eq (Response.lex_setMessage "") (Response.lex_setMessage message)
            simp [Response.messageTokens, Token.emptied]
          simp [Fragment.linesOf, Fragment.lines, hline]
  | _ => rfl

/-- A hollow slot has the lines of the slot with their literals emptied. -/
theorem emptied_slot (messageOf : String → Option String) (w : Widget) :
    (Program.slotLines
        (w.hollow.slot fun action => (messageOf action).map fun _ => "")).flatMap Line.emptied =
      (Program.slotLines (w.slot messageOf)).flatMap Line.emptied := by
  unfold Program.slotLines slot
  simp only [Fragment.linesOf_append, List.cons_append, List.flatMap_cons, List.flatMap_append,
    emptied_reaction, emptied_layOut]

end Widget

namespace Page

theorem imports_hollow (page : Page) : page.hollow.imports = page.imports := by
  unfold imports hollow
  simp only [List.foldl_map, Widget.imports_hollow, Window.imports_hollow]

theorem state_hollow (page : Page) : page.hollow.state = page.state := by
  unfold state hollow
  simp only [List.filterMap_map, Function.comp_def, Widget.state_hollow]

theorem emptied_optionLines (page : Page) :
    page.hollow.program.optionLines.flatMap Line.emptied =
      page.program.optionLines.flatMap Line.emptied := by
  unfold Program.optionLines
  change ((page.window.options.map WindowOption.hollow).map _).flatMap _ =
    (page.window.options.map _).flatMap _
  rw [List.map_map, List.flatMap_map, List.flatMap_map]
  apply List.flatMap_congr
  intro option _
  exact option.emptied_hollow 3

theorem emptied_flexLines (page : Page) :
    page.hollow.program.flexLines.flatMap Line.emptied =
      page.program.flexLines.flatMap Line.emptied := by
  have hslots : (page.hollow.slots.flatMap Program.slotLines).flatMap Line.emptied =
      (page.slots.flatMap Program.slotLines).flatMap Line.emptied := by
    have hwidgets : (page.widgets.flatMap fun w => (Program.slotLines
          (w.hollow.slot fun action => (page.messageOf action).map fun _ => "")).flatMap
            Line.emptied) =
        page.widgets.flatMap fun w => (Program.slotLines (w.slot page.messageOf)).flatMap
          Line.emptied := by
      apply List.flatMap_congr
      intro w _
      exact w.emptied_slot page.messageOf
    unfold slots hollow
    simp only [List.flatMap_append, List.flatMap_map, List.map_map, List.flatMap_assoc,
      Function.comp_apply, hwidgets]
  have hempty : page.hollow.slots.isEmpty = page.slots.isEmpty := by
    unfold slots hollow
    cases page.widgets <;> cases page.feedback <;> rfl
  have hhollow : page.hollow.program.slots = page.hollow.slots := rfl
  have hpage : page.program.slots = page.slots := rfl
  unfold Program.flexLines
  rw [hhollow, hpage, hempty]
  split
  · rfl
  · simp only [List.cons_append, List.flatMap_cons, List.flatMap_append, hslots]

/-- Emptying the literals of the program is emptying the texts of the page. -/
theorem eraseLiterals_hollow (page : Page) :
    eraseLiterals page.hollow.program.source = eraseLiterals page.program.source := by
  have himports : page.hollow.program.importLines = page.program.importLines := by
    unfold Program.importLines
    exact congrArg (fun imports : Imports => imports.sorted.map _) page.imports_hollow
  have hstate : page.hollow.program.stateLines = page.program.stateLines := by
    unfold Program.stateLines
    have hvariables : page.hollow.program.state = page.program.state := page.state_hollow
    rw [hvariables]
  rw [eraseLiterals_source, eraseLiterals_source]
  unfold Program.lines
  simp only [List.flatMap_append, himports, hstate, emptied_optionLines, emptied_flexLines]

end Page

/-- What two elements may not differ in. -/
structure Ui.Element.Alike (first second : Ui.Element) : Prop where
  kind : first.kind? = second.kind?
  action : first.action? = second.action?
  size : first.field? "size" = second.field? "size"
  level : first.field? "level" = second.field? "level"

/-- Alike elements are described by widgets that only differ in their texts. -/
theorem Widget.hollow_eq_of_alike {index : Nat} {first second : Ui.Element} {w v : Widget}
    (halike : first.Alike second) (hw : Describes index first w)
    (hv : Describes index second v) : w.hollow = v.hollow := by
  have hkind := halike.kind
  have hsize : first.natural? "size" = second.natural? "size" := by
    unfold Ui.Element.natural?
    rw [halike.size]
  have hlevel : first.natural? "level" = second.natural? "level" := by
    unfold Ui.Element.natural?
    rw [halike.level]
  -- The kinds agree, so both widgets come from the same case of the description.
  cases hw with
  | label hfirst _ =>
      rw [hfirst] at hkind
      cases hv with
      | label hsecond _ => simp [hollow, hsize]
      | _ hsecond => simp [hsecond] at hkind
  | heading hfirst _ =>
      rw [hfirst] at hkind
      cases hv with
      | heading hsecond _ => simp [hollow, hlevel]
      | _ hsecond => simp [hsecond] at hkind
  | button hfirst _ =>
      rw [hfirst] at hkind
      cases hv with
      | button hsecond _ => simp [hollow, halike.action]
      | _ hsecond => simp [hsecond] at hkind
  | editor hfirst =>
      rw [hfirst] at hkind
      cases hv with
      | editor hsecond => rfl
      | _ hsecond => simp [hsecond] at hkind

theorem Widget.map_hollow_eq {first second : List Ui.Element} {widgets others : List Widget}
    (start : Nat) (halike : List.Forall₂ Ui.Element.Alike first second)
    (hwidgets : List.Forall₂ (fun p w => Describes p.2 p.1 w) (first.zipIdx start) widgets)
    (hothers : List.Forall₂ (fun p w => Describes p.2 p.1 w) (second.zipIdx start) others) :
    widgets.map hollow = others.map hollow := by
  induction halike generalizing start widgets others with
  | nil =>
      cases hwidgets
      cases hothers
      rfl
  | cons hhead _ ih =>
      rw [List.zipIdx_cons] at hwidgets hothers
      cases hwidgets with
      | cons hw hwidgets =>
          cases hothers with
          | cons hv hothers =>
              rw [List.map_cons, List.map_cons, hollow_eq_of_alike hhead hw hv,
                ih (start + 1) hwidgets hothers]

theorem Window.hollow_ofSpec (spec : Option Ui.WindowSpec) :
    (ofSpec spec).hollow = (ofSpec (some { spec.getD {} with title := none })).hollow := by
  simp [ofSpec, hollow, WindowOption.hollow]

theorem isEmpty_eq_of_keys {first second : Handlers}
    (h : ∀ action, action ∈ first.keys ↔ action ∈ second.keys) :
    first.isEmpty = second.isEmpty := by
  have hiff : ∀ handlers : Handlers,
      handlers.isEmpty = true ↔ ∀ action, action ∉ handlers.keys := by
    intro handlers
    rw [Table.isEmpty, List.isEmpty_iff, ← List.eq_nil_iff_forall_not_mem, Table.keys,
      List.map_eq_nil_iff]
  rw [Bool.eq_iff_iff, hiff, hiff]
  simp only [h]

/-- Where the same actions are handled, the same buttons show a message, whatever it says. -/
theorem hollow_message_eq {first second : Relation.Graph}
    (h : ∀ action, action ∈ (resolveActions first).keys ↔ action ∈ (resolveActions second).keys)
    (action : String) :
    ((first.lastMessage? action).map fun _ => "") =
      (second.lastMessage? action).map fun _ => "" := by
  have hsome : (first.lastMessage? action).isSome = (second.lastMessage? action).isSome := by
    have hkeys := h action
    rw [Table.mem_keys_iff_isSome, Table.mem_keys_iff_isSome, get?_resolveActions,
      get?_resolveActions, Option.isSome_map, Option.isSome_map] at hkeys
    exact Bool.eq_iff_iff.mpr hkeys
  cases hfirst : first.lastMessage? action <;> cases hsecond : second.lastMessage? action
  all_goals simp_all

/-- Documents that differ only in titles, values and messages compile to programs that
differ only inside their literals. -/
theorem texts_stay_inside_literals (first second : Ui.Graph) (relation other : Relation.Graph)
    {source target : String}
    (hsource : compile first (resolveActions relation) = .ok source)
    (htarget : compile second (resolveActions other) = .ok target)
    (helements : List.Forall₂ Ui.Element.Alike first.elements second.elements)
    (hwindow : ({ first.window.getD {} with title := none } : Ui.WindowSpec) =
      { second.window.getD {} with title := none })
    (hactions : ∀ action,
      action ∈ (resolveActions relation).keys ↔ action ∈ (resolveActions other).keys) :
    ∃ text, eraseLiterals source = some text ∧ eraseLiterals target = some text := by
  obtain ⟨_, widgets, _, hwidgets, _, rfl⟩ := Compilation.page_of_compile hsource
  obtain ⟨_, others, _, hothers, _, rfl⟩ := Compilation.page_of_compile htarget
  have hpages : (Page.of first relation widgets).hollow = (Page.of second other others).hollow := by
    have hmessages : (fun action => (relation.lastMessage? action).map fun _ => "") =
        fun action => (other.lastMessage? action).map fun _ => "" :=
      funext (hollow_message_eq hactions)
    unfold Page.hollow Page.of
    simp only [hmessages, isEmpty_eq_of_keys hactions,
      Widget.map_hollow_eq 0 helements hwidgets hothers]
    rw [Window.hollow_ofSpec, hwindow, ← Window.hollow_ofSpec]
  have herased : eraseLiterals (Page.of second other others).program.source =
      eraseLiterals (Page.of first relation widgets).program.source := by
    rw [← Page.eraseLiterals_hollow, ← hpages, Page.eraseLiterals_hollow]
  rw [herased, Page.eraseLiterals_source]
  exact ⟨_, rfl, rfl⟩

/-- A value and a message that look like code change nothing outside the literals. -/
theorem texts_stay_inside_literals_hostile :
    ∃ source target text,
      compile { elements := [(Ui.Element.ofKind "button").withValue "Go" |>.withAction "go"] }
        (resolveActions ⟨[.of "go" (.text "done")]⟩) = .ok source ∧
      compile
        { window := some { title := some "\\" }
          elements := [(Ui.Element.ofKind "button").withValue "\") //" |>.withAction "go"] }
        (resolveActions ⟨[.of "go" (.text "\n\x7d")]⟩) = .ok target ∧
      eraseLiterals source = some text ∧ eraseLiterals target = some text := by
  obtain ⟨text, hsource, htarget⟩ := texts_stay_inside_literals
    { elements := [(Ui.Element.ofKind "button").withValue "Go" |>.withAction "go"] }
    { window := some { title := some "\\" }
      elements := [(Ui.Element.ofKind "button").withValue "\") //" |>.withAction "go"] }
    ⟨[.of "go" (.text "done")]⟩ ⟨[.of "go" (.text "\n\x7d")]⟩
    rfl rfl (.cons ⟨rfl, rfl, rfl, rfl⟩ .nil) rfl (fun _ => Iff.rfl)
  exact ⟨_, _, text, rfl, rfl, hsource, htarget⟩

end GioForge
