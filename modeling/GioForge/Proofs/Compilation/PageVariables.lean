import GioForge.Proofs.Compilation.PageBrackets
import GioForge.Proofs.Go.Names

/-!
The variables of the programs of pages: which names a program declares, and where the
names of its variables stand. The names of variables begin in their own way, and so
does the function that takes a slot, so these names are followed through the lines of a
program while all other words are passed over.
-/

namespace GioForge

open Code Go

/-- What the names begin with that are followed through a program. -/
def trackedStems : List String :=
  ["Rigid", "button", "input", "actionMessage"]

def isTracked (name : String) : Bool :=
  trackedStems.any fun stem => stem.toList.isPrefixOf name.toList

theorem isTracked_append {stem : String} (h : stem ∈ trackedStems) (rest : String) :
    isTracked (stem ++ rest) = true := by
  apply List.any_eq_true.mpr
  refine ⟨stem, h, ?_⟩
  rw [List.isPrefixOf_iff_prefix, String.toList_append]
  exact List.prefix_append _ _

theorem isTracked_buttonName (index : Nat) : isTracked (Widget.buttonName index) = true :=
  isTracked_append (by decide) _

theorem isTracked_editorName (index : Nat) : isTracked (Widget.editorName index) = true :=
  isTracked_append (by decide) _

theorem isTracked_heading (level : String) : isTracked ("H" ++ level) = false := by
  simp [isTracked, trackedStems, List.isPrefixOf]

/-- No keyword is taken for a variable. -/
theorem not_mem_declaring_of_isTracked {name : String} (h : isTracked name = true) :
    name ∉ declaring := by
  have hall : ∀ keyword ∈ declaring, isTracked keyword = false := by decide
  intro hmem
  rw [hall name hmem] at h
  cases h

/-- The names that are followed, as often as they stand in the tokens. -/
def mentions (tokens : List Token) : List String :=
  (words tokens).filter isTracked

theorem mentions_of_words {tokens : List Token} {name : String} {before after : List String}
    (hwords : words tokens = before ++ name :: after) (hname : isTracked name = true)
    (hbefore : before.filter isTracked = []) (hafter : after.filter isTracked = []) :
    mentions tokens = [name] := by
  rw [mentions, hwords, List.filter_append, List.filter_cons_of_pos hname, hbefore, hafter]
  rfl

theorem word_mem_flatMap_iff {lines : List (List Token)} {name : String}
    (h : isTracked name = true) :
    .word name ∈ lines.flatMap significant ↔ name ∈ lines.flatMap mentions := by
  simp only [List.mem_flatMap, mentions, List.mem_filter, h, and_true, ← mem_words,
    words_significant]

namespace Widget

def stateName? : Widget → Option String
  | .button index _ _ => some (buttonName index)
  | .editor index _ => some (editorName index)
  | _ => none

theorem name_state (w : Widget) : w.component.state.map StateVariable.name = w.stateName? := by
  cases w <;> rfl

theorem mentions_tokens (w : Widget) : mentions w.tokens = w.stateName?.toList := by
  cases w with
  | label size text => rfl
  | heading level text =>
      have hwords : words (heading level text).tokens =
          ["return", "material", "H" ++ Text.decimalText level, "th", "Layout", "gtx"] := rfl
      -- The level is part of a word, so the words are not all given.
      have hlevel := isTracked_heading (Text.decimalText level)
      rw [mentions, hwords, List.filter_cons_of_neg (by decide),
        List.filter_cons_of_neg (by decide), List.filter_cons_of_neg (by simp [hlevel])]
      rfl
  | button index action text =>
      have hwords : words (button index action text).tokens =
          ["return", "material", "Button", "th"] ++ buttonName index :: ["Layout", "gtx"] := rfl
      exact mentions_of_words hwords (isTracked_buttonName index) rfl rfl
  | editor index hint =>
      have hwords : words (editor index hint).tokens =
          ["return", "material", "Editor", "th"] ++ editorName index :: ["Layout", "gtx"] := rfl
      exact mentions_of_words hwords (isTracked_editorName index) rfl rfl

/-- A reaction mentions its button and the message, and nothing if no message is shown. -/
theorem mentions_reactionTokens (messageOf : String → Option String) (w : Widget) :
    (w.reactionTokens messageOf).flatMap mentions =
      if (w.message? messageOf).isSome then w.stateName?.toList ++ [messageVariable] else [] := by
  cases w with
  | button index action text =>
      have hwords : words (clickedTokens index) =
          ["if"] ++ buttonName index :: ["Clicked", "gtx"] := rfl
      have hclicked := mentions_of_words hwords (isTracked_buttonName index) rfl rfl
      cases hmessage : action.bind messageOf with
      | none => simp [reactionTokens, message?, hmessage]
      | some message =>
          have hassigned : mentions (Response.messageTokens message) = [messageVariable] := rfl
          have hclosed : mentions [.mark '\x7d'] = [] := rfl
          simp [reactionTokens, message?, hmessage, hclicked, hassigned, hclosed, stateName?]
  | _ => rfl

end Widget

namespace Program

/-- What is read off the parts of a program that do not depend on the page. -/
structure FixedParts where
  head : List String := []
  window : List String := []
  theme : List String := []
  frame : List String := []
  tail : List String := []
  slotStart : List String := []
  slotEnd : List String := []
  flexNone : List String := []
  flexOpen : List String := []
  flexClose : List String := []
deriving DecidableEq

def fixedParts (read : List Token → List String) : FixedParts :=
  { head := (scanned headLines).flatMap read
    window := (scanned windowLines).flatMap read
    theme := (scanned themeLines).flatMap read
    frame := (scanned frameLines).flatMap read
    tail := (scanned tailLines).flatMap read
    slotStart := (scanned Program.slotStart).flatMap read
    slotEnd := (scanned Program.slotEnd).flatMap read
    flexNone := (scanned Program.flexNone).flatMap read
    flexOpen := (scanned Program.flexOpen).flatMap read
    flexClose := (scanned Program.flexClose).flatMap read }

-- Scanning the lines takes longest, so all that is read off them is decided at once.
theorem fixedParts_spec :
    fixedParts mentions = { slotStart := ["Rigid"] } ∧
    fixedParts declarations =
      { window := ["main", "w"], theme := ["ops", "th"], frame := ["e", "gtx"],
        slotStart := ["gtx"] } ∧
    ∀ tokens ∈ fixedTokens, isSettled (significant tokens) = true := by
  decide +kernel

end Program

namespace WindowOption

theorem mentions_tokens (option : WindowOption) : mentions option.tokens = [] := by
  cases option <;> rfl

theorem declarations_tokens (option : WindowOption) : declarations option.tokens = [] := by
  cases option <;> rfl

end WindowOption

namespace StateVariable

theorem mentions_tokens {v : StateVariable} (hname : isTracked v.name = true)
    (htype : v.type ∈ ["widget.Clickable", "widget.Editor", "string"]) :
    mentions v.tokens = [v.name] := by
  have htypes : ∀ type ∈ ["widget.Clickable", "widget.Editor", "string"],
      (words ((lex (" " ++ type)).getD [])).filter isTracked = [] := by
    decide +kernel
  have hwords : words v.tokens = ["var"] ++ v.name :: words ((lex (" " ++ v.type)).getD []) := rfl
  exact mentions_of_words hwords hname rfl (htypes v.type htype)

theorem declarations_tokens {v : StateVariable} (hname : isTracked v.name = true)
    (htype : v.type ∈ ["widget.Clickable", "widget.Editor", "string"]) :
    declarations v.tokens = [v.name] := by
  have htypes : ∀ type ∈ ["widget.Clickable", "widget.Editor", "string"],
      (significant ((lex (" " ++ type)).getD [])).take 2 ≠ [.mark ':', .mark '='] ∧
        declarations ((lex (" " ++ type)).getD []) = [] := by
    decide +kernel
  obtain ⟨hshort, hnone⟩ := htypes v.type htype
  -- The name is declared behind `var`, and as a word before its type it declares nothing.
  have hvar : declarations v.tokens =
      v.name :: (declaredAt (.word v.name :: significant ((lex (" " ++ v.type)).getD [])) ++
        declarations ((lex (" " ++ v.type)).getD [])) := rfl
  rw [hvar, declaredAt_of_not_mem (not_mem_declaring_of_isTracked hname), if_neg hshort, hnone]
  rfl

end StateVariable

namespace Page

def preambleTokens (page : Page) : List (List Token) :=
  scanned Program.headLines ++
    page.imports.paths.map (fun path => [.literal path (utf8 path)]) ++
    scanned Program.windowLines ++ page.window.options.map WindowOption.tokens ++
    scanned Program.themeLines ++ page.stateTokens ++ scanned Program.frameLines

theorem lineTokens_eq (page : Page) :
    page.lineTokens = page.preambleTokens ++ page.flexTokens ++ scanned Program.tailLines :=
  rfl

theorem isTracked_of_mem_state {page : Page} {v : StateVariable} (h : v ∈ page.state) :
    isTracked v.name = true := by
  rcases (page.mem_state v).mp h with ⟨index, _, _, _, rfl⟩ | ⟨index, _, _, rfl⟩ | ⟨_, rfl⟩
  · exact isTracked_buttonName index
  · exact isTracked_editorName index
  · rfl

/-- What is read off the lines above the layout, if it is nothing for paths and options
and the name for declarations. -/
theorem flatMap_preambleTokens (page : Page) {read : List Token → List String}
    (hblank : read [] = []) (hpath : ∀ path, read [.literal path (utf8 path)] = [])
    (hoption : ∀ option : WindowOption, read option.tokens = [])
    (hstate : ∀ v ∈ page.state, read v.tokens = [v.name]) :
    page.preambleTokens.flatMap read =
      (Program.fixedParts read).head ++ (Program.fixedParts read).window ++
        (Program.fixedParts read).theme ++ page.state.map StateVariable.name ++
        (Program.fixedParts read).frame := by
  have hpaths : (page.imports.paths.map fun path =>
      [Token.literal path (utf8 path)]).flatMap read = [] := by
    simp [List.flatMap_map, hpath]
  have hoptions : (page.window.options.map WindowOption.tokens).flatMap read = [] := by
    simp [List.flatMap_map, hoption]
  have hnames : page.stateTokens.flatMap read = page.state.map StateVariable.name := by
    have hvariables : (page.state.map StateVariable.tokens).flatMap read =
        page.state.map StateVariable.name := by
      rw [List.flatMap_map, List.flatMap_congr hstate]
      exact List.map_eq_flatMap.symm
    unfold stateTokens
    split
    · next hempty => simp [List.isEmpty_iff.mp hempty]
    · rw [List.flatMap_cons, hblank, hvariables]
      rfl
  simp only [preambleTokens, List.flatMap_append, hpaths, hoptions, hnames, List.append_nil]
  rfl

/-- What is read off the layout is what is read off its slots, where its own lines have nothing
to read. -/
theorem flatMap_flexTokens (page : Page) {read : List Token → List String}
    (hnone : (Program.fixedParts read).flexNone = [])
    (hopen : (Program.fixedParts read).flexOpen = [])
    (hclose : (Program.fixedParts read).flexClose = [])
    (hend : (Program.fixedParts read).slotEnd = []) :
    page.flexTokens.flatMap read =
      page.slotTokens.flatMap fun slot =>
        (Program.fixedParts read).slotStart ++ slot.flatMap read := by
  simp only [Program.fixedParts] at hnone hopen hclose hend ⊢
  unfold flexTokens
  split
  · next hempty =>
      rw [List.isEmpty_iff.mp hempty, hnone]
      rfl
  · simp only [List.flatMap_append, List.flatMap_assoc, hopen, hclose, hend, List.append_nil,
      List.nil_append]

/-- Above the layout, the names that are followed are those of the declarations. -/
theorem mentions_preambleTokens (page : Page) :
    page.preambleTokens.flatMap mentions = page.state.map StateVariable.name := by
  rw [page.flatMap_preambleTokens rfl (fun _ => rfl) WindowOption.mentions_tokens,
    Program.fixedParts_spec.1]
  · simp
  · intro v hv
    exact StateVariable.mentions_tokens (isTracked_of_mem_state hv) (state_wellFormed hv).2

/-- A page mentions its variables where they are declared and then slot by slot. -/
theorem mentions_lineTokens (page : Page) :
    page.lineTokens.flatMap mentions =
      page.state.map StateVariable.name ++
        page.slotTokens.flatMap fun slot => "Rigid" :: slot.flatMap mentions := by
  have hfixed := Program.fixedParts_spec.1
  have htail : (scanned Program.tailLines).flatMap mentions = [] :=
    congrArg Program.FixedParts.tail hfixed
  rw [lineTokens_eq, List.flatMap_append, List.flatMap_append, mentions_preambleTokens, htail,
    page.flatMap_flexTokens (by rw [hfixed]) (by rw [hfixed]) (by rw [hfixed]) (by rw [hfixed]),
    hfixed]
  simp

end Page

theorem Widget.declarations_tokens (w : Widget) : declarations w.tokens = [] := by
  cases w with
  | heading level text =>
      have hlevel : "H" ++ Text.decimalText level ∉ declaring := by
        simp [declaring, String.ext_iff]
      have hwords : declarations (heading level text).tokens =
          declaredAt (.word ("H" ++ Text.decimalText level) ::
            [.mark '(', .word "th", .mark ',', .literal (escape text) (utf8 text), .mark ')',
              .mark '.', .word "Layout", .mark '(', .word "gtx", .mark ')']) := rfl
      rw [hwords, declaredAt_of_not_mem hlevel]
      rfl
  | _ => rfl

namespace Page

/-- No line begins or ends within a declaration, so lines can be looked at one by one. -/
theorem Written.isSettled {page : Page} {tokens : List Token} (h : page.Written tokens) :
    isSettled (significant tokens) = true := by
  cases h with
  | fixed h => exact Program.fixedParts_spec.2.2 tokens h
  | path path => rfl
  | @option option h => cases option <;> rfl
  | @declaration v h =>
      rcases (page.mem_state v).mp h with ⟨_, _, _, _, rfl⟩ | ⟨_, _, _, rfl⟩ | ⟨_, rfl⟩
      · rw [StateVariable.tokens_clickable]
        rfl
      · rw [StateVariable.tokens_editor]
        rfl
      · rw [StateVariable.tokens_string]
        rfl
  | reaction h htokens =>
      obtain ⟨_, _, _, _, rfl | ⟨_, rfl⟩ | rfl⟩ := Widget.mem_reactionTokens htokens
      all_goals rfl
  | @widget w h => cases w <;> rfl
  | message h htokens =>
      have hall : ((scanned (Fragment.linesOf 6 Compilation.messageSlot)).all fun tokens =>
          Go.isSettled (significant tokens)) = true := rfl
      exact List.all_eq_true.mp hall tokens htokens

theorem declarations_of_mem_slotTokens {page : Page} {slot : List (List Token)}
    (h : slot ∈ page.slotTokens) : slot.flatMap declarations = [] := by
  rcases List.mem_append.mp h with hwidget | hmessage
  · obtain ⟨w, _, rfl⟩ := List.mem_map.mp hwidget
    rw [List.flatMap_append, List.flatMap_singleton, w.declarations_tokens, List.append_nil,
      List.flatMap_eq_nil_iff]
    intro tokens htokens
    obtain ⟨_, _, _, _, rfl | ⟨_, rfl⟩ | rfl⟩ := Widget.mem_reactionTokens htokens
    all_goals rfl
  · split at hmessage
    · obtain rfl := List.mem_singleton.mp hmessage
      rfl
    · cases hmessage

/-- What the program of a page declares, in order. -/
theorem declarations_lines (page : Page) :
    declarations (page.program.lines.flatMap Line.tokens) =
      ["main", "w", "ops", "th"] ++ page.state.map StateVariable.name ++ ["e", "gtx"] ++
        page.slotTokens.map fun _ => "gtx" := by
  have hfixed := Program.fixedParts_spec.2.1
  have htail : (scanned Program.tailLines).flatMap declarations = [] :=
    congrArg Program.FixedParts.tail hfixed
  have hpreamble : page.preambleTokens.flatMap declarations =
      ["main", "w", "ops", "th"] ++ page.state.map StateVariable.name ++ ["e", "gtx"] := by
    rw [page.flatMap_preambleTokens rfl (fun _ => rfl) WindowOption.declarations_tokens, hfixed]
    · rfl
    · intro v hv
      exact StateVariable.declarations_tokens (isTracked_of_mem_state hv) (state_wellFormed hv).2
  have hflex : page.flexTokens.flatMap declarations = page.slotTokens.map fun _ => "gtx" := by
    rw [page.flatMap_flexTokens (by rw [hfixed]) (by rw [hfixed]) (by rw [hfixed]) (by rw [hfixed]),
      hfixed, List.map_eq_flatMap]
    apply List.flatMap_congr
    intro slot hslot
    rw [declarations_of_mem_slotTokens hslot]
    rfl
  unfold declarations
  rw [page.scans_lines.significant_eq, declarations_flatMap, lineTokens_eq, List.flatMap_append,
    List.flatMap_append, hpreamble, hflex, htail, List.append_nil]
  intro tokens htokens
  exact (written_of_mem htokens).isSettled

end Page

end GioForge
