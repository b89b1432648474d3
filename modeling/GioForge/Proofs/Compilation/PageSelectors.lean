import GioForge.Proofs.Compilation.PageLines

/-!
The selectors of the programs of pages. The lines of a page are of few kinds: fixed
lines, paths, options, declarations, reactions, layouts of widgets and the display of
the message. No line begins or ends with a dot, so the selectors of a program are
those of its lines, and those are listed here for each kind of line.
-/

namespace GioForge

open Code Go

namespace Program

/-- The variables that every program declares for itself and selects from. -/
def localNames : List String :=
  ["w", "th", "e", "gtx"]

def constantTokens : List (List Token) :=
  scanned headLines ++ scanned windowLines ++ scanned themeLines ++ scanned frameLines ++
    scanned tailLines

def fixedTokens : List (List Token) :=
  constantTokens ++ scanned slotStart ++ scanned slotEnd ++ scanned flexNone ++
    scanned flexOpen ++ scanned flexClose

def constantSelectors : List (String × String) :=
  [("app", "Window"), ("w", "Option"), ("op", "Ops"), ("material", "NewTheme"), ("w", "Event"),
    ("app", "FrameEvent"), ("app", "NewContext"), ("paint", "Fill"), ("gtx", "Ops"), ("th", "Bg"),
    ("e", "Frame"), ("gtx", "Ops"), ("app", "DestroyEvent"), ("os", "Exit"), ("app", "Main")]

def slotSelectors : List (String × String) :=
  [("layout", "Rigid"), ("layout", "Context"), ("layout", "Dimensions"), ("layout", "Flex"),
    ("layout", "Vertical"), ("layout", "Flex"), ("layout", "Vertical")]

theorem selectors_constantTokens : constantTokens.flatMap selectors = constantSelectors := by
  rfl

theorem selectors_fixedTokens :
    fixedTokens.flatMap selectors = constantSelectors ++ slotSelectors := by
  simp only [fixedTokens, List.flatMap_append, selectors_constantTokens, List.append_assoc]
  rfl

theorem selectors_messageSlot :
    (scanned (Fragment.linesOf 6 Compilation.messageSlot)).flatMap selectors =
      [("layout", "Dimensions"), ("material", "Body1")] := by
  rfl

end Program

namespace Page

/-- The tokens of the lines that a page may have, by what the line is for. -/
inductive Written (page : Page) : List Token → Prop where
  | fixed {tokens : List Token} (h : tokens ∈ Program.fixedTokens) : Written page tokens
  | path (path : String) (h : path ∈ page.imports.paths) :
      Written page [.literal path (utf8 path)]
  | option {option : WindowOption} (h : option ∈ page.window.options) : Written page option.tokens
  | declaration {v : StateVariable} (h : v ∈ page.state) : Written page v.tokens
  | reaction {w : Widget} {tokens : List Token} (h : w ∈ page.widgets)
      (htokens : tokens ∈ w.reactionTokens page.messageOf) : Written page tokens
  | widget {w : Widget} (h : w ∈ page.widgets) : Written page w.tokens
  | message {tokens : List Token} (h : page.feedback = true)
      (htokens : tokens ∈ scanned (Fragment.linesOf 6 Compilation.messageSlot)) :
      Written page tokens

theorem written_of_mem_slotTokens {page : Page} {slot : List (List Token)} {tokens : List Token}
    (hslot : slot ∈ page.slotTokens) (htokens : tokens ∈ slot) : page.Written tokens := by
  rcases List.mem_append.mp hslot with hwidget | hmessage
  · obtain ⟨w, hw, rfl⟩ := List.mem_map.mp hwidget
    rcases List.mem_append.mp htokens with hreaction | hlast
    · exact .reaction hw hreaction
    · obtain rfl := List.mem_singleton.mp hlast
      exact .widget hw
  · split at hmessage
    · next hfeedback =>
        obtain rfl := List.mem_singleton.mp hmessage
        exact .message hfeedback htokens
    · cases hmessage

theorem written_of_mem_flexTokens {page : Page} {tokens : List Token}
    (h : tokens ∈ page.flexTokens) : page.Written tokens := by
  unfold flexTokens at h
  split at h
  · apply Written.fixed
    simp [Program.fixedTokens, Program.constantTokens, h]
  · simp only [List.mem_append, List.mem_flatMap, or_assoc] at h
    rcases h with hopen | ⟨slot, hslot, hstart | hbody | hend⟩ | hclose
    · apply Written.fixed
      simp [Program.fixedTokens, hopen]
    · apply Written.fixed
      simp [Program.fixedTokens, hstart]
    · exact written_of_mem_slotTokens hslot hbody
    · apply Written.fixed
      simp [Program.fixedTokens, hend]
    · apply Written.fixed
      simp [Program.fixedTokens, hclose]

/-- Every line of a page is of one of the kinds listed. -/
theorem written_of_mem {page : Page} {tokens : List Token} (h : tokens ∈ page.lineTokens) :
    page.Written tokens := by
  simp only [lineTokens, List.mem_append, or_assoc] at h
  rcases h with h | h | h | h | h | h | h | h | h
  · apply Written.fixed
    simp [Program.fixedTokens, Program.constantTokens, h]
  · obtain ⟨path, hpath, rfl⟩ := List.mem_map.mp h
    exact .path path hpath
  · apply Written.fixed
    simp [Program.fixedTokens, Program.constantTokens, h]
  · obtain ⟨option, hoption, rfl⟩ := List.mem_map.mp h
    exact .option hoption
  · apply Written.fixed
    simp [Program.fixedTokens, Program.constantTokens, h]
  · unfold stateTokens at h
    split at h
    · cases h
    · rcases List.mem_cons.mp h with rfl | hv
      · exact .fixed (List.mem_of_elem_eq_true rfl)
      · obtain ⟨v, hstate, rfl⟩ := List.mem_map.mp hv
        exact .declaration hstate
  · apply Written.fixed
    simp [Program.fixedTokens, Program.constantTokens, h]
  · exact written_of_mem_flexTokens h
  · apply Written.fixed
    simp [Program.fixedTokens, Program.constantTokens, h]

end Page

/-- An option selects itself, and the unit of its lengths if it has any. -/
theorem WindowOption.selectors_tokens (option : WindowOption) :
    selectors option.tokens =
      ("app", option.symbol) ::
        if option.hasLengths then [("unit", "Dp"), ("unit", "Dp")] else [] := by
  cases option <;> rfl

namespace StateVariable

theorem tokens_clickable (name : String) :
    tokens ⟨name, "widget.Clickable"⟩ =
      [.word "var", .blank ' ', .word name, .blank ' ', .word "widget", .mark '.',
        .word "Clickable"] := by
  have htype : lex (" " ++ "widget.Clickable") =
      some [.blank ' ', .word "widget", .mark '.', .word "Clickable"] := rfl
  simp only [tokens, htype, Option.getD_some]

theorem tokens_editor (name : String) :
    tokens ⟨name, "widget.Editor"⟩ =
      [.word "var", .blank ' ', .word name, .blank ' ', .word "widget", .mark '.',
        .word "Editor"] := by
  have htype : lex (" " ++ "widget.Editor") =
      some [.blank ' ', .word "widget", .mark '.', .word "Editor"] := rfl
  simp only [tokens, htype, Option.getD_some]

theorem tokens_string (name : String) :
    tokens ⟨name, "string"⟩ =
      [.word "var", .blank ' ', .word name, .blank ' ', .word "string"] := by
  have htype : lex (" " ++ "string") = some [.blank ' ', .word "string"] := rfl
  simp only [tokens, htype, Option.getD_some]

end StateVariable

namespace Widget

def symbols : Widget → List (String × String)
  | .label _ _ => [("material", "Label"), ("unit", "Sp")]
  | .heading level _ => [("material", "H" ++ Text.decimalText level)]
  | .button _ _ _ => [("material", "Button")]
  | .editor _ _ => [("material", "Editor")]

theorem selectors_tokens (w : Widget) : selectors w.tokens = w.symbols := by
  cases w <;> rfl

/-- Only buttons react, and with lines of three forms. -/
theorem mem_reactionTokens {messageOf : String → Option String} {w : Widget}
    {tokens : List Token} (h : tokens ∈ w.reactionTokens messageOf) :
    ∃ index action text, w = .button index action text ∧
      (tokens = clickedTokens index ∨ (∃ message, tokens = Response.messageTokens message) ∨
        tokens = [.mark '\x7d']) := by
  cases w with
  | button index action text =>
      simp only [reactionTokens] at h
      cases hmessage : action.bind messageOf with
      | none => simp [hmessage] at h
      | some message =>
          simp only [hmessage, List.mem_cons, List.not_mem_nil, or_false] at h
          refine ⟨index, action, text, rfl, ?_⟩
          rcases h with hclicked | hassigned | hclosed
          · exact Or.inl hclicked
          · exact Or.inr (Or.inl ⟨message, hassigned⟩)
          · exact Or.inr (Or.inr hclosed)
  | _ => cases h

end Widget

namespace Page

/-- No line begins or ends within a selector, so lines can be looked at one by one. -/
theorem Written.isClosed {page : Page} {tokens : List Token} (h : page.Written tokens) :
    isClosed (significant tokens) = true := by
  cases h with
  | fixed h =>
      have hall : ∀ tokens ∈ Program.fixedTokens, Go.isClosed (significant tokens) = true := by
        decide +kernel
      exact hall tokens h
  | path path => rfl
  | @option option h => cases option <;> rfl
  | @declaration v h =>
      rcases (page.mem_state v).mp h with ⟨_, _, _, _, rfl⟩ | ⟨_, _, _, rfl⟩ | ⟨_, rfl⟩
      · rw [StateVariable.tokens_clickable]
        rfl
      · rw [StateVariable.tokens_editor]
        rfl
      · rw [StateVariable.tokens_string]
        rfl
  | reaction h htokens =>
      obtain ⟨_, _, _, _, rfl | ⟨_, rfl⟩ | rfl⟩ := Widget.mem_reactionTokens htokens
      all_goals rfl
  | @widget w h => cases w <;> rfl
  | message h htokens =>
      have hall : ((scanned (Fragment.linesOf 6 Compilation.messageSlot)).all fun tokens =>
          Go.isClosed (significant tokens)) = true := rfl
      exact List.all_eq_true.mp hall tokens htokens

/-- The selectors of the program of a page are those of its lines. -/
theorem selectors_lines (page : Page) :
    selectors (page.program.lines.flatMap Line.tokens) =
      page.lineTokens.flatMap selectors := by
  unfold selectors
  rw [page.scans_lines.significant_eq]
  apply selectors_flatMap
  intro tokens htokens
  exact (written_of_mem htokens).isClosed

end Page

end GioForge
