import GioForge.Proofs.Compilation.PageSelectors
import GioForge.Proofs.Go.Brackets

/-!
The brackets of the programs of pages. Opening and closing brackets stand on different
lines, so for each part of a program it is said which brackets it closes and which it
leaves open. The parts that depend on the page leave things as they were, whatever the
texts of the page are and however many slots there are.
-/

namespace GioForge

open Code Go

/-- The lines close the brackets of the first list and leave those of the second open. -/
def Bracketed (closed opened : List Char) (tokens : List (List Token)) : Prop :=
  ∀ around, brackets (closed ++ around) (tokens.flatMap significant) = some (opened ++ around)

/-- What the first part leaves open the second may close. -/
theorem Bracketed.append {closed middle opened : List Char} {first second : List (List Token)}
    (hfirst : Bracketed closed middle first) (hsecond : Bracketed middle opened second) :
    Bracketed closed opened (first ++ second) := by
  intro around
  rw [List.flatMap_append]
  exact brackets_append (hfirst around) (hsecond around)

/-- More brackets may be open around the lines. -/
theorem Bracketed.within {closed opened : List Char} {tokens : List (List Token)}
    (h : Bracketed closed opened tokens) (around : List Char) :
    Bracketed (closed ++ around) (opened ++ around) tokens := by
  intro more
  rw [List.append_assoc, List.append_assoc]
  exact h (around ++ more)

theorem bracketed_nil : Bracketed [] [] [] := fun _ => rfl

theorem bracketed_map {α : Type} {xs : List α} {tokens : α → List Token}
    (h : ∀ x ∈ xs, ∀ around, brackets around (significant (tokens x)) = some around) :
    Bracketed [] [] (xs.map tokens) := by
  intro around
  rw [List.flatMap_map]
  exact brackets_flatMap fun x hx => h x hx around

theorem bracketed_flatMap {α : Type} {xs : List α} {tokens : α → List (List Token)}
    (h : ∀ x ∈ xs, Bracketed [] [] (tokens x)) : Bracketed [] [] (xs.flatMap tokens) := by
  intro around
  rw [List.flatMap_assoc]
  exact brackets_flatMap fun x hx => h x hx around

namespace Program

theorem bracketed_headLines : Bracketed [] [')'] (scanned headLines) := fun _ => rfl

theorem bracketed_windowLines :
    Bracketed [')'] [')', '\x7d', '\x7d'] (scanned windowLines) := fun _ => rfl

theorem bracketed_themeLines : Bracketed [')'] [] (scanned themeLines) := fun _ => rfl

theorem bracketed_frameLines : Bracketed [] ['\x7d', '\x7d'] (scanned frameLines) := fun _ => rfl

theorem bracketed_tailLines :
    Bracketed ['\x7d', '\x7d', '\x7d', '\x7d'] [] (scanned tailLines) := fun _ => rfl

/-- A slot closes what it opens if its body does. -/
theorem bracketed_slot {tokens : List (List Token)} (h : Bracketed [] [] tokens) :
    Bracketed [] [] (scanned slotStart ++ tokens ++ scanned slotEnd) := by
  have hstart : Bracketed [] ['\x7d', ')'] (scanned slotStart) := fun _ => rfl
  have hend : Bracketed ['\x7d', ')'] [] (scanned slotEnd) := fun _ => rfl
  exact (hstart.append (h.within _)).append hend

end Program

def messageSlotTokens : List Token :=
  [.word "if", .word "actionMessage", .mark '=', .mark '=', .literal "" [], .mark '\x7b',
    .word "return", .word "layout", .mark '.', .word "Dimensions", .mark '\x7b', .mark '\x7d',
    .mark '\x7d', .word "return", .word "material", .mark '.', .word "Body1", .mark '(', .word "th",
    .mark ',', .word "actionMessage", .mark ')', .mark '.', .word "Layout", .mark '(', .word "gtx",
    .mark ')']

theorem significant_messageSlot :
    (scanned (Fragment.linesOf 6 Compilation.messageSlot)).flatMap significant =
      messageSlotTokens := by
  rfl

theorem bracketed_messageSlot :
    Bracketed [] [] (scanned (Fragment.linesOf 6 Compilation.messageSlot)) := by
  intro around
  rw [significant_messageSlot]
  rfl

namespace Widget

theorem bracketed_reactionTokens (messageOf : String → Option String) (w : Widget) :
    Bracketed [] [] (w.reactionTokens messageOf) := by
  cases w with
  | button index action text =>
      simp only [reactionTokens]
      cases action.bind messageOf with
      | none => exact bracketed_nil
      | some message => exact fun _ => rfl
  | _ => exact bracketed_nil

theorem bracketed_slotTokens (messageOf : String → Option String) (w : Widget) :
    Bracketed [] [] (w.reactionTokens messageOf ++ [w.tokens]) := by
  have htokens : Bracketed [] [] [w.tokens] := by
    cases w <;> exact fun _ => rfl
  exact (w.bracketed_reactionTokens messageOf).append htokens

end Widget

namespace Page

theorem bracketed_stateTokens (page : Page) : Bracketed [] [] page.stateTokens := by
  have hvariables : Bracketed [] [] (page.state.map StateVariable.tokens) := by
    apply bracketed_map
    intro v hv around
    rcases (page.mem_state v).mp hv with ⟨_, _, _, _, rfl⟩ | ⟨_, _, _, rfl⟩ | ⟨_, rfl⟩
    · rw [StateVariable.tokens_clickable]
      rfl
    · rw [StateVariable.tokens_editor]
      rfl
    · rw [StateVariable.tokens_string]
      rfl
  unfold stateTokens
  split
  · exact bracketed_nil
  · exact hvariables

theorem bracketed_of_mem_slotTokens {page : Page} {slot : List (List Token)}
    (h : slot ∈ page.slotTokens) : Bracketed [] [] slot := by
  rcases List.mem_append.mp h with hwidget | hmessage
  · obtain ⟨w, _, rfl⟩ := List.mem_map.mp hwidget
    exact w.bracketed_slotTokens page.messageOf
  · split at hmessage
    · obtain rfl := List.mem_singleton.mp hmessage
      exact bracketed_messageSlot
    · cases hmessage

/-- The slots together close what they open. -/
theorem bracketed_flexTokens (page : Page) : Bracketed [] [] page.flexTokens := by
  have hnone : Bracketed [] [] (scanned Program.flexNone) := fun _ => rfl
  have hopen : Bracketed [] [')'] (scanned Program.flexOpen) := fun _ => rfl
  have hclose : Bracketed [')'] [] (scanned Program.flexClose) := fun _ => rfl
  have hslots : Bracketed [] [] (page.slotTokens.flatMap fun tokens =>
      scanned Program.slotStart ++ tokens ++ scanned Program.slotEnd) :=
    bracketed_flatMap fun slot hslot => Program.bracketed_slot (bracketed_of_mem_slotTokens hslot)
  unfold flexTokens
  split
  · exact hnone
  · exact (hopen.append (hslots.within _)).append hclose

/-- All brackets of the program of a page are closed. -/
theorem bracketed_lineTokens (page : Page) : Bracketed [] [] page.lineTokens := by
  have hpaths : Bracketed [] []
      (page.imports.paths.map fun path => [Token.literal path (utf8 path)]) :=
    bracketed_map fun _ _ _ => rfl
  have hoptions : Bracketed [] [] (page.window.options.map WindowOption.tokens) := by
    apply bracketed_map
    intro option _ around
    cases option <;> rfl
  exact (((((((Program.bracketed_headLines.append (hpaths.within _)).append
    Program.bracketed_windowLines).append (hoptions.within _)).append
    (Program.bracketed_themeLines.within _)).append (page.bracketed_stateTokens.within _)).append
    (Program.bracketed_frameLines.within _)).append (page.bracketed_flexTokens.within _)).append
    Program.bracketed_tailLines

end Page

end GioForge
