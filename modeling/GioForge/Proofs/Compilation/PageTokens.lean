import GioForge.Proofs.Compilation.PageImports
import GioForge.Proofs.Program.Layout

/-!
The tokens of the programs of pages. Each line that depends on the page is scanned
once, for all values that may stand in it: texts are scanned as one literal, however
they look, and names and numbers end before what follows them. The other lines are
fixed, and their tokens are computed.
-/

namespace GioForge

open Code Go

-- Stated for variables, since the general law is slow to match against literals.
theorem append_six (a b c d e f : String) :
    a ++ b ++ c ++ d ++ e ++ f = a ++ (b ++ (c ++ (d ++ (e ++ f)))) := by
  simp only [String.append_assoc]

theorem append_five (a b c d e : String) :
    a ++ b ++ c ++ d ++ e = a ++ (b ++ (c ++ (d ++ e))) := by
  simp only [String.append_assoc]

theorem append_nested (a b c d : String) : a ++ (b ++ c) ++ d = a ++ (b ++ (c ++ d)) := by
  simp only [String.append_assoc]

theorem append_four (a b c d : String) : a ++ b ++ c ++ d = a ++ (b ++ (c ++ d)) := by
  simp only [String.append_assoc]

theorem Go.stops_append {first second : String}
    (h : first.toList.head?.map isWordChar = some false) : Stops (first ++ second) := by
  obtain ⟨c, hhead, hc⟩ := Option.map_eq_some_iff.mp h
  obtain ⟨rest, hrest⟩ := List.head?_eq_some_iff.mp hhead
  intro d hd
  obtain rfl : c = d := by simpa [hrest] using hd
  exact hc

/-- A name followed by a number is a name. -/
theorem Go.isName_append_decimal {stem : String} (hstem : IsName stem) (n : Nat) :
    IsName (stem ++ Text.decimalText n) := by
  obtain ⟨c, rest, hchars, hletter, hrest⟩ := hstem
  refine ⟨c, rest ++ Text.decimal n, ?_, hletter, ?_⟩
  · simp [hchars, Text.decimalText]
  · intro d hd
    rcases List.mem_append.mp hd with hd | hd
    · exact hrest d hd
    · exact isWordChar_of_isDigit (isDigit_of_mem_decimal hd)

namespace Widget

theorem isName_buttonName (index : Nat) : IsName (buttonName index) :=
  isName_append_decimal ⟨'b', "utton".toList, rfl, rfl, List.all_eq_true.mp rfl⟩ index

theorem isName_editorName (index : Nat) : IsName (editorName index) :=
  isName_append_decimal ⟨'i', "nput".toList, rfl, rfl, List.all_eq_true.mp rfl⟩ index

/-- The tokens of the call that makes the widget, up to its closing bracket. -/
def callTokens : Widget → List Token
  | .label size text =>
      [.word "Label", .mark '(', .word "th", .mark ',', .blank ' ', .word "unit", .mark '.',
        .word "Sp", .mark '(', .number (Text.decimalText size), .mark ')', .mark ',', .blank ' ',
        .literal (escape text) (utf8 text)]
  | .heading level text =>
      [.word ("H" ++ Text.decimalText level), .mark '(', .word "th", .mark ',', .blank ' ',
        .literal (escape text) (utf8 text)]
  | .button index _ text =>
      [.word "Button", .mark '(', .word "th", .mark ',', .blank ' ', .mark '&',
        .word (buttonName index), .mark ',', .blank ' ', .literal (escape text) (utf8 text)]
  | .editor index hint =>
      [.word "Editor", .mark '(', .word "th", .mark ',', .blank ' ', .mark '&',
        .word (editorName index), .mark ',', .blank ' ', .literal (escape hint) (utf8 hint)]

def endTokens : List Token :=
  [.mark ')', .mark '.', .word "Layout", .mark '(', .word "gtx", .mark ')']

def tokens (w : Widget) : List Token :=
  [.word "return", .blank ' ', .word "material", .mark '.'] ++ (w.callTokens ++ endTokens)

theorem lex_end : lex (")" ++ ".Layout(gtx)") = some endTokens := rfl

/-- A quoted text and the end of the call are read as a literal and that end. -/
theorem lex_text (text : String) :
    lex (quote text ++ (")" ++ ".Layout(gtx)")) =
      some (.literal (escape text) (utf8 text) :: endTokens) :=
  lex_quote_append lex_end

/-- The variable of a widget and its text as the last two arguments. -/
theorem lex_variable (name text : String) (hname : IsName name) :
    lex (name ++ (", " ++ (quote text ++ (")" ++ ".Layout(gtx)")))) =
      some (.word name :: .mark ',' :: .blank ' ' ::
        .literal (escape text) (utf8 text) :: endTokens) := by
  have hseparator : transduce State.step .between ", ".toList =
      some ([.mark ',', .blank ' '], .between) := rfl
  have htext := lex_append hseparator (lex_text text)
  exact lex_name_append hname (stops_append rfl) htext

/-- The call of a widget is read as its tokens, whatever its text holds. -/
theorem lex_call (w : Widget) :
    lex (w.call ++ ".Layout(gtx)") = some (w.callTokens ++ endTokens) := by
  cases w with
  | label size text =>
      have hopen : transduce State.step .between "Label(th, unit.Sp(".toList =
          some ([.word "Label", .mark '(', .word "th", .mark ',', .blank ' ', .word "unit",
            .mark '.', .word "Sp", .mark '('], .between) := rfl
      have hclose : transduce State.step .between "), ".toList =
          some ([.mark ')', .mark ',', .blank ' '], .between) := rfl
      have htext := lex_append hclose (lex_text text)
      have hsize := lex_decimal_append (n := size) (stops_append rfl) htext
      have hcall := lex_append hopen hsize
      exact (congrArg lex (append_six _ _ _ _ _ _)).trans hcall
  | heading level text =>
      have hname : IsName ("H" ++ Text.decimalText level) :=
        isName_append_decimal ⟨'H', [], rfl, rfl, by simp⟩ level
      have hopen : transduce State.step .between "(th, ".toList =
          some ([.mark '(', .word "th", .mark ',', .blank ' '], .between) := rfl
      have htext := lex_append hopen (lex_text text)
      have hcall := lex_name_append hname (stops_append rfl) htext
      exact (congrArg lex (append_five _ _ _ _ _)).trans hcall
  | button index action text =>
      have hopen : transduce State.step .between "Button(th, &".toList =
          some ([.word "Button", .mark '(', .word "th", .mark ',', .blank ' ', .mark '&'],
            .between) := rfl
      have hcall := lex_append hopen (lex_variable _ text (isName_buttonName index))
      exact (congrArg lex (append_six _ _ _ _ _ _)).trans hcall
  | editor index hint =>
      have hopen : transduce State.step .between "Editor(th, &".toList =
          some ([.word "Editor", .mark '(', .word "th", .mark ',', .blank ' ', .mark '&'],
            .between) := rfl
      have hcall := lex_append hopen (lex_variable _ hint (isName_editorName index))
      exact (congrArg lex (append_six _ _ _ _ _ _)).trans hcall

theorem lex_layOut (w : Widget) :
    lex ("return material." ++ w.call ++ ".Layout(gtx)") = some w.tokens := by
  have hopen : transduce State.step .between "return material.".toList =
      some ([.word "return", .blank ' ', .word "material", .mark '.'], .between) := rfl
  rw [String.append_assoc]
  exact lex_append hopen w.lex_call

def clickedTokens (index : Nat) : List Token :=
  [.word "if", .blank ' ', .word (buttonName index), .mark '.', .word "Clicked", .mark '(',
    .word "gtx", .mark ')', .blank ' ', .mark '\x7b']

theorem lex_clicked (index : Nat) :
    lex ("if " ++ (buttonName index ++ ".Clicked(gtx)") ++ " \x7b") =
      some (clickedTokens index) := by
  have hopen : transduce State.step .between "if ".toList =
      some ([.word "if", .blank ' '], .between) := rfl
  have hcall : lex (".Clicked(gtx)" ++ " \x7b") =
      some [.mark '.', .word "Clicked", .mark '(', .word "gtx", .mark ')', .blank ' ',
        .mark '\x7b'] := rfl
  have hname := lex_name_append (isName_buttonName index) (stops_append rfl) hcall
  have hline := lex_append hopen hname
  exact (congrArg lex (append_nested _ _ _ _)).trans hline

end Widget

def Response.messageTokens (message : String) : List Token :=
  [.word "actionMessage", .blank ' ', .mark '=', .blank ' ',
    .literal (escape message) (utf8 message)]

/-- The line that sets a message is read as one assignment of a literal. -/
theorem Response.lex_setMessage (message : String) :
    lex (setMessage message) = some (messageTokens message) := by
  have hopen : transduce State.step .between ("actionMessage" ++ " = ").toList =
      some ([.word "actionMessage", .blank ' ', .mark '=', .blank ' '], .between) := rfl
  have hempty : lex "" = some [] := rfl
  have hquote := lex_append hopen (lex_quote_append (s := message) hempty)
  rw [String.append_empty] at hquote
  exact hquote

namespace WindowOption

def lengthTokens (width height : UInt32) : List Token :=
  [.mark '(', .word "unit", .mark '.', .word "Dp", .mark '(',
    .number (Text.decimalText width.toNat), .mark ')', .mark ',', .blank ' ', .word "unit",
    .mark '.', .word "Dp", .mark '(', .number (Text.decimalText height.toNat), .mark ')',
    .mark ')', .mark ',']

def tokens : WindowOption → List Token
  | .title text =>
      [.word "app", .mark '.', .word "Title", .mark '(', .literal (escape text) (utf8 text),
        .mark ')', .mark ',']
  | .size width height => .word "app" :: .mark '.' :: .word "Size" :: lengthTokens width height
  | .minSize width height =>
      .word "app" :: .mark '.' :: .word "MinSize" :: lengthTokens width height
  | .maxSize width height =>
      .word "app" :: .mark '.' :: .word "MaxSize" :: lengthTokens width height
  | .fullscreen =>
      [.word "app", .mark '.', .word "Fullscreen", .mark '.', .word "Option", .mark '(',
        .mark ')', .mark ',']

theorem lex_dimensions (width height : UInt32) :
    lex (dimensions width height ++ (")" ++ ",")) = some (lengthTokens width height).tail := by
  have hopen : transduce State.step .between "unit.Dp(".toList =
      some ([.word "unit", .mark '.', .word "Dp", .mark '('], .between) := rfl
  have hmiddle : transduce State.step .between "), unit.Dp(".toList =
      some ([.mark ')', .mark ',', .blank ' ', .word "unit", .mark '.', .word "Dp", .mark '('],
        .between) := rfl
  have hclose : lex (")" ++ (")" ++ ",")) = some [.mark ')', .mark ')', .mark ','] := rfl
  have hheight := lex_decimal_append (n := height.toNat) (stops_append rfl) hclose
  have hwidth := lex_decimal_append (n := width.toNat) (stops_append rfl)
    (lex_append hmiddle hheight)
  exact (congrArg lex (append_six _ _ _ _ _ _)).trans (lex_append hopen hwidth)

theorem lex_lengths {start : String} (opening : List Token) (width height : UInt32)
    (hstart : transduce State.step .between start.toList =
      some (opening ++ [.mark '('], .between)) :
    lex (start ++ dimensions width height ++ ")" ++ ",") =
      some (opening ++ lengthTokens width height) := by
  have hline := lex_append hstart (lex_dimensions width height)
  rw [List.append_assoc] at hline
  exact (congrArg lex (append_four _ _ _ _)).trans hline

/-- The line of an option is read as its tokens, whatever its text holds. -/
theorem lex_expression (option : WindowOption) :
    lex (option.expression ++ ",") = some option.tokens := by
  cases option with
  | title text =>
      have hopen : transduce State.step .between "app.Title(".toList =
          some ([.word "app", .mark '.', .word "Title", .mark '('], .between) := rfl
      have hclose : lex (")" ++ ",") = some [.mark ')', .mark ','] := rfl
      have hline := lex_append hopen (lex_quote_append (s := text) hclose)
      exact (congrArg lex (append_four _ _ _ _)).trans hline
  | size width height =>
      exact lex_lengths [.word "app", .mark '.', .word "Size"] width height rfl
  | minSize width height =>
      exact lex_lengths [.word "app", .mark '.', .word "MinSize"] width height rfl
  | maxSize width height =>
      exact lex_lengths [.word "app", .mark '.', .word "MaxSize"] width height rfl
  | fullscreen => rfl

end WindowOption

namespace StateVariable

theorem lex_declaration {name type : String} {tokens : List Token} (hname : IsName name)
    (htype : lex (" " ++ type) = some tokens) :
    lex (declaration ⟨name, type⟩) =
      some (.word "var" :: .blank ' ' :: .word name :: tokens) := by
  have hopen : transduce State.step .between "var ".toList =
      some ([.word "var", .blank ' '], .between) := rfl
  have hline := lex_append hopen (lex_name_append hname (stops_append rfl) htype)
  exact (congrArg lex (append_four _ _ _ _)).trans hline

end StateVariable

end GioForge
