import GioForge.Proofs.Compilation.PageTokens
import GioForge.Proofs.Go.Outline

/-!
The programs of pages, line by line. Every line of the program of a page can be
scanned, whatever the texts of the page are, and so the program can be scanned as a
whole. The tokens are given by line, in the order of the lines.
-/

namespace GioForge

open Code Go

/-- The lines have these tokens, line by line. -/
def Scans (lines : List Line) (tokens : List (List Token)) : Prop :=
  lines.map (fun line => lex line.text) = tokens.map some

def scanned (lines : List Line) : List (List Token) :=
  lines.map fun line => (lex line.text).getD []

theorem scans_scanned {lines : List Line}
    (h : (lines.all fun line => (lex line.text).isSome) = true) :
    Scans lines (scanned lines) := by
  unfold Scans scanned
  rw [List.map_map]
  apply List.map_congr_left
  intro line hline
  have hsome : (lex line.text).isSome = true := List.all_eq_true.mp h line hline
  obtain ⟨tokens, htokens⟩ := Option.isSome_iff_exists.mp hsome
  simp [htokens]

/-- Lines are read one by one, so two parts are read apart. -/
theorem Scans.append {first second : List Line} {tokens more : List (List Token)}
    (hfirst : Scans first tokens) (hsecond : Scans second more) :
    Scans (first ++ second) (tokens ++ more) := by
  unfold Scans at *
  rw [List.map_append, List.map_append, hfirst, hsecond]

theorem Scans.cons {level : Nat} {text : String} {tokens : List Token} {rest : List Line}
    {more : List (List Token)} (htext : lex text = some tokens) (hrest : Scans rest more) :
    Scans (⟨level, text⟩ :: rest) (tokens :: more) := by
  unfold Scans at *
  rw [List.map_cons, List.map_cons, htext, hrest]

theorem Scans.nil : Scans [] [] := rfl

theorem Scans.flatMap {α : Type} {xs : List α} {lines : α → List Line}
    {tokens : α → List (List Token)} (h : ∀ x ∈ xs, Scans (lines x) (tokens x)) :
    Scans (xs.flatMap lines) (xs.flatMap tokens) := by
  induction xs with
  | nil => exact Scans.nil
  | cons x rest ih =>
      rw [List.flatMap_cons, List.flatMap_cons]
      exact (h x (by simp)).append (ih fun y hy => h y (by simp [hy]))

theorem Scans.map {α : Type} {xs : List α} {line : α → Line} {tokens : α → List Token}
    (h : ∀ x ∈ xs, lex (line x).text = some (tokens x)) :
    Scans (xs.map line) (xs.map tokens) := by
  unfold Scans
  rw [List.map_map, List.map_map]
  exact List.map_congr_left fun x hx => h x hx

theorem Code.Line.significant_tokens {line : Line} {tokens : List Token}
    (h : lex line.text = some tokens) : significant line.tokens = significant tokens := by
  have htabs : significant (List.replicate line.level (.blank '\t')) = [] := by
    apply List.filter_eq_nil_iff.mpr
    intro token htoken
    rw [List.eq_of_mem_replicate htoken]
    exact Bool.false_ne_true
  have hmargin : significant
      (if line.text.isEmpty then [] else List.replicate line.level (.blank '\t')) = [] := by
    split
    · rfl
    · exact htabs
  have hfeed : significant [.blank '\n'] = [] := rfl
  unfold Line.tokens
  rw [significant_append, significant_append, hmargin, hfeed, h, List.append_nil]
  rfl

/-- Indentation and line feeds leave no trace in what is significant. -/
theorem Scans.significant_eq {lines : List Line} {tokens : List (List Token)}
    (h : Scans lines tokens) :
    significant (lines.flatMap Line.tokens) = tokens.flatMap significant := by
  induction lines generalizing tokens with
  | nil =>
      obtain rfl : tokens = [] := List.map_eq_nil_iff.mp (Eq.symm h)
      rfl
  | cons line rest ih =>
      obtain ⟨first, more, rfl, hfirst, hmore⟩ := List.map_eq_cons_iff.mp (Eq.symm h)
      have hrest : Scans rest more := hmore.symm
      rw [List.flatMap_cons, List.flatMap_cons, significant_append, ih hrest,
        Line.significant_tokens hfirst.symm]

namespace Program

theorem scans_headLines : Scans headLines (scanned headLines) :=
  scans_scanned rfl

theorem scans_windowLines : Scans windowLines (scanned windowLines) :=
  scans_scanned rfl

theorem scans_themeLines : Scans themeLines (scanned themeLines) :=
  scans_scanned rfl

theorem scans_frameLines : Scans frameLines (scanned frameLines) :=
  scans_scanned rfl

theorem scans_tailLines : Scans tailLines (scanned tailLines) :=
  scans_scanned rfl

end Program

namespace StateVariable

def tokens (v : StateVariable) : List Token :=
  .word "var" :: .blank ' ' :: .word v.name :: (lex (" " ++ v.type)).getD []

end StateVariable

namespace Widget

/-- The tokens of the statements that react to the use of the widget, by line. -/
def reactionTokens (messageOf : String → Option String) : Widget → List (List Token)
  | .button index action _ =>
      match action.bind messageOf with
      | some message =>
          [clickedTokens index, Response.messageTokens message, [.mark '\x7d']]
      | none => []
  | _ => []

theorem scans_reaction (messageOf : String → Option String) (w : Widget) (level : Nat) :
    Scans (Fragment.linesOf level (w.reaction messageOf)) (w.reactionTokens messageOf) := by
  cases w with
  | button index action text =>
      simp only [reaction, reactionTokens]
      cases action.bind messageOf with
      | none => exact Scans.nil
      | some message =>
          have hclose : lex "\x7d" = some [.mark '\x7d'] := rfl
          exact .cons (lex_clicked index)
            (.cons (Response.lex_setMessage message) (.cons hclose .nil))
  | _ => exact Scans.nil

/-- A slot is the reaction of its widget and the call that shows it. -/
theorem scans_slot (messageOf : String → Option String) (w : Widget) (level : Nat) :
    Scans (Fragment.linesOf level (w.slot messageOf))
      (w.reactionTokens messageOf ++ [w.tokens]) := by
  unfold slot
  rw [Fragment.linesOf_append]
  exact (w.scans_reaction messageOf level).append (.cons w.lex_layOut .nil)

end Widget

namespace Program

def slotStart : List Line :=
  [⟨5, "layout.Rigid(func(gtx layout.Context) layout.Dimensions \x7b"⟩]

def slotEnd : List Line :=
  [⟨5, "\x7d),"⟩]

def flexNone : List Line :=
  [⟨4, flexStart ++ ")"⟩]

def flexOpen : List Line :=
  [⟨4, flexStart ++ ","⟩]

def flexClose : List Line :=
  [⟨4, ")"⟩]

theorem scans_slotLines {body : List Fragment} {tokens : List (List Token)}
    (h : Scans (Fragment.linesOf 6 body) tokens) :
    Scans (slotLines body) (scanned slotStart ++ tokens ++ scanned slotEnd) := by
  have hstart : Scans slotStart (scanned slotStart) := scans_scanned rfl
  have hend : Scans slotEnd (scanned slotEnd) := scans_scanned rfl
  exact (hstart.append h).append hend

end Program

namespace Page

def slotTokens (page : Page) : List (List (List Token)) :=
  page.widgets.map (fun w => w.reactionTokens page.messageOf ++ [w.tokens]) ++
    if page.feedback then [scanned (Fragment.linesOf 6 Compilation.messageSlot)] else []

def flexTokens (page : Page) : List (List Token) :=
  if page.slotTokens.isEmpty then scanned Program.flexNone
  else scanned Program.flexOpen ++
    page.slotTokens.flatMap (fun tokens =>
      scanned Program.slotStart ++ tokens ++ scanned Program.slotEnd) ++
    scanned Program.flexClose

def stateTokens (page : Page) : List (List Token) :=
  if page.state.isEmpty then [] else [] :: page.state.map StateVariable.tokens

def lineTokens (page : Page) : List (List Token) :=
  scanned Program.headLines ++
    page.imports.paths.map (fun path => [.literal path (utf8 path)]) ++
    scanned Program.windowLines ++ page.window.options.map WindowOption.tokens ++
    scanned Program.themeLines ++ page.stateTokens ++ scanned Program.frameLines ++
    page.flexTokens ++ scanned Program.tailLines

theorem scans_importLines (page : Page) :
    Scans page.program.importLines
      (page.imports.paths.map fun path => [.literal path (utf8 path)]) := by
  have hlex : ∀ path ∈ packages,
      lex ("\"" ++ path ++ "\"") = some [.literal path (utf8 path)] := by
    decide +kernel
  unfold Imports.paths
  rw [List.map_map]
  apply Scans.map
  intro entry hentry
  have hpath : entry.1 ∈ page.imports.paths := List.mem_map_of_mem hentry
  exact hlex entry.1 (mem_packages ((page.imports.mem_paths entry.1).mp hpath))

/-- A state variable has a proper name and one of three types. -/
theorem state_wellFormed {page : Page} {v : StateVariable} (h : v ∈ page.state) :
    IsName v.name ∧ v.type ∈ ["widget.Clickable", "widget.Editor", "string"] := by
  rcases (page.mem_state v).mp h with ⟨index, _, _, _, rfl⟩ | ⟨index, _, _, rfl⟩ | ⟨_, rfl⟩
  · exact ⟨Widget.isName_buttonName index, by simp⟩
  · exact ⟨Widget.isName_editorName index, by simp⟩
  · exact ⟨⟨'a', "ctionMessage".toList, rfl, rfl, List.all_eq_true.mp rfl⟩, by simp⟩

theorem scans_stateLines (page : Page) : Scans page.program.stateLines page.stateTokens := by
  have htypes : (["widget.Clickable", "widget.Editor", "string"].all fun type =>
      (lex (" " ++ type)).isSome) = true := rfl
  have hvariables : Scans (page.state.map fun v => ⟨2, v.declaration⟩)
      (page.state.map StateVariable.tokens) := by
    apply Scans.map
    intro v hv
    obtain ⟨hname, htype⟩ := state_wellFormed hv
    obtain ⟨tokens, htokens⟩ := Option.isSome_iff_exists.mp
      (List.all_eq_true.mp htypes v.type htype)
    unfold StateVariable.tokens
    rw [htokens]
    exact StateVariable.lex_declaration hname htokens
  have hblank : lex "" = some [] := rfl
  unfold Program.stateLines stateTokens
  change Scans (if page.state.isEmpty then [] else _) _
  split
  · exact Scans.nil
  · exact .cons hblank hvariables

theorem scans_flexLines (page : Page) : Scans page.program.flexLines page.flexTokens := by
  have hslots : Scans (page.slots.flatMap Program.slotLines)
      (page.slotTokens.flatMap fun tokens =>
        scanned Program.slotStart ++ tokens ++ scanned Program.slotEnd) := by
    have hwidgets : Scans ((page.widgets.map (Widget.slot page.messageOf)).flatMap
          Program.slotLines)
        ((page.widgets.map fun w => w.reactionTokens page.messageOf ++ [w.tokens]).flatMap
          fun tokens => scanned Program.slotStart ++ tokens ++ scanned Program.slotEnd) := by
      rw [List.flatMap_map, List.flatMap_map]
      apply Scans.flatMap
      intro w _
      exact Program.scans_slotLines (w.scans_slot page.messageOf 6)
    have hmessage : Scans (Fragment.linesOf 6 Compilation.messageSlot)
        (scanned (Fragment.linesOf 6 Compilation.messageSlot)) :=
      scans_scanned rfl
    unfold slots slotTokens
    rw [List.flatMap_append, List.flatMap_append]
    apply hwidgets.append
    split
    · rw [List.flatMap_singleton, List.flatMap_singleton]
      exact Program.scans_slotLines hmessage
    · exact Scans.nil
  have hempty : page.slots.isEmpty = page.slotTokens.isEmpty := by
    unfold slots slotTokens
    cases page.widgets <;> cases page.feedback <;> rfl
  have hnone : Scans Program.flexNone (scanned Program.flexNone) :=
    scans_scanned rfl
  have hopen : Scans Program.flexOpen (scanned Program.flexOpen) :=
    scans_scanned rfl
  have hclose : Scans Program.flexClose (scanned Program.flexClose) :=
    scans_scanned rfl
  unfold Program.flexLines flexTokens
  change Scans (if page.slots.isEmpty then _ else _) _
  rw [hempty]
  split
  · exact hnone
  · exact (hopen.append hslots).append hclose

/-- Every line of the program of a page can be scanned. -/
theorem scans_lines (page : Page) : Scans page.program.lines page.lineTokens := by
  have hoptions : Scans page.program.optionLines (page.window.options.map WindowOption.tokens) :=
    Scans.map fun option _ => option.lex_expression
  exact (((((((Program.scans_headLines.append page.scans_importLines).append
    Program.scans_windowLines).append hoptions).append Program.scans_themeLines).append
    page.scans_stateLines).append Program.scans_frameLines).append
    page.scans_flexLines).append Program.scans_tailLines

/-- The source of a page can be read, line by line. -/
theorem lex_source (page : Page) :
    lex page.program.source = some (page.program.lines.flatMap Line.tokens) := by
  apply Program.lex_source
  intro line hline
  have hmem : lex line.text ∈ page.program.lines.map fun line => lex line.text :=
    List.mem_map_of_mem hline
  rw [page.scans_lines] at hmem
  obtain ⟨tokens, _, htokens⟩ := List.mem_map.mp hmem
  simp [← htokens]

end Page

end GioForge
