import GioForge.Proofs.Code.LastLine
import GioForge.Proofs.Compilation.Bindings

/-!
Returns at the ends of slots. A slot is a function body, so the last line of it that shows
anything has to begin with the word `return`. Whether one has to be added is decided by the
line that a search for the last one finds and by the letters it begins with; the main
statement says that this comes out right exactly if it agrees with what is written, and that
it does for all components that are known from the start.
-/

namespace GioForge

namespace Go

mutual

/-- What is left of a line behind white space and comments. -/
def afterBlanks : List Char → List Char
  | [] => []
  | '/' :: '/' :: _ => []
  | '/' :: '*' :: rest => afterComment rest
  | c :: rest => if isSpace c then afterBlanks rest else c :: rest

/-- What is left of a line behind the comment it begins in, and behind what comes after it. -/
def afterComment : List Char → List Char
  | [] => []
  | '*' :: '/' :: rest => afterBlanks rest
  | _ :: rest => afterComment rest

end

/-- The characters that continue a name. Beyond ASCII, nothing but letters and digits may
stand outside of literals and comments. -/
def continuesName (c : Char) : Bool :=
  isWordChar c || 0x80 ≤ c.toNat

/-- The first token of a line is a keyword. -/
def beginsWithKeyword (keyword line : String) : Bool :=
  let rest := afterBlanks line.toList
  keyword.toList.isPrefixOf rest &&
    (rest.drop keyword.toList.length).head?.all fun c => !continuesName c

theorem afterBlanks_cons_of_isSpace {c : Char} (h : isSpace c = true) (rest : List Char) :
    afterBlanks (c :: rest) = afterBlanks rest := by
  have hslash : c ≠ '/' := by
    rintro rfl
    cases h
  rw [afterBlanks]
  · rw [if_pos h]
  · rintro _ rfl
    exact absurd rfl hslash
  · rintro _ rfl
    exact absurd rfl hslash

/-- A margin has no part in what a line begins with. -/
theorem afterBlanks_append {margin : List Char} (h : ∀ c ∈ margin, isSpace c = true)
    (line : List Char) : afterBlanks (margin ++ line) = afterBlanks line := by
  induction margin with
  | nil => rfl
  | cons c rest ih =>
      rw [List.cons_append, afterBlanks_cons_of_isSpace (h c List.mem_cons_self)]
      exact ih fun d hd => h d (List.mem_cons_of_mem c hd)

/-- Indentation plays no part in what a line begins with. -/
theorem beginsWithKeyword_margin (keyword : String) (indent : Code.Indent) (level : Nat)
    (line : String) :
    beginsWithKeyword keyword (String.join (List.replicate level indent.unit) ++ line) =
      beginsWithKeyword keyword line := by
  unfold beginsWithKeyword
  rw [String.toList_append, afterBlanks_append]
  intro c hc
  rcases Code.Indent.eq_of_mem_margin hc with rfl | rfl <;> rfl

example : beginsWithKeyword "return" "\t/* done */ return x" = true ∧
    beginsWithKeyword "return" "returnValue()" = false := by
  decide +kernel

end Go

open Code Fragment

namespace Program

/-- The last line that shows anything in the written statements begins with the keyword that
returns. -/
def endsInReturn (indent : Indent) (level : Nat) (body : List Fragment) : Bool :=
  (Text.lastShown? (({ indent, level } : Writer).emitAll body).text).any
    (Go.beginsWithKeyword "return")

/-- The statements are made to end in a return, and left as they are if they do already. -/
def Completes (indent : Indent) (level : Nat) (body : List Fragment) : Prop :=
  endsInReturn indent level (ensureReturn body) = true ∧
    (endsInReturn indent level body = true → ensureReturn body = body)

/-- Whether a body ends in a return is decided by its last line that is shown, at any level. -/
theorem endsInReturn_eq (indent : Indent) (level : Nat) {body : List Fragment}
    (h : ∀ text ∈ textsOf body, '\n' ∉ text.toList) :
    endsInReturn indent level body =
      ((Line.lastShown? (linesOf level body)).map Line.text).any
        (Go.beginsWithKeyword "return") := by
  unfold endsInReturn
  rw [Writer.lastShown?_emitAll h]
  cases Line.lastShown? (linesOf level body) with
  | none => rfl
  | some line => exact Go.beginsWithKeyword_margin "return" indent line.level line.text

/-- A line that returns is enough at the end, whatever stands before it. -/
theorem endsInReturn_concat (indent : Indent) (level : Nat) (before : List Fragment)
    {text : String} (hfeed : '\n' ∉ text.toList) (hshown : Text.isBlankText text = false)
    (hreturn : Go.beginsWithKeyword "return" text = true) :
    endsInReturn indent level (before ++ [.line text]) = true := by
  -- What stands before is whole lines, so the line that returns begins a line of the text.
  have hbefore : ∀ lines : List (List Char), lines.flatMap (· ++ ['\n']) = [] ∨
      ∃ init, lines.flatMap (· ++ ['\n']) = init ++ ['\n'] := by
    intro lines
    rcases List.eq_nil_or_concat lines with rfl | ⟨init, last, rfl⟩
    · exact Or.inl rfl
    · refine Or.inr ⟨init.flatMap (· ++ ['\n']) ++ last, ?_⟩
      simp
  have hlast : (linesOf level [.line text]).map (Line.inner indent) =
      [Line.inner indent ⟨level, text⟩] := rfl
  have htexts : ∀ other ∈ textsOf [.line text], '\n' ∉ other.toList := by
    simpa [textsOf, texts] using hfeed
  have hinner : '\n' ∉ Line.inner indent ⟨level, text⟩ :=
    line_feed_not_mem_inner htexts indent level _ List.mem_cons_self
  have hfound := Text.lastShown?_append_line
    (hbefore ((linesOf level before).map (Line.inner indent))) hinner
    ((Line.isBlankText_inner indent ⟨level, text⟩).trans hshown)
  unfold endsInReturn
  rw [Writer.text_emitAll, linesOf_append, List.map_append, List.flatMap_append, hlast,
    List.flatMap_singleton, hfound, Line.inner_of_shown hshown, Option.any_some,
    Go.beginsWithKeyword_margin]
  exact hreturn

/-- Statements that have a return added end in it. -/
theorem endsInReturn_of_added (indent : Indent) (level : Nat) {body : List Fragment}
    (h : (lastLineOf? body).any beginsWithReturn = false) :
    endsInReturn indent level (ensureReturn body) = true := by
  unfold ensureReturn
  rw [if_neg (by simp [h])]
  exact endsInReturn_concat indent level body (by decide) (by decide) (by decide)

/-- Statements are completed exactly if the test for a return at their end is right. -/
theorem completes_iff (indent : Indent) (level : Nat) (body : List Fragment) :
    Completes indent level body ↔
      (lastLineOf? body).any beginsWithReturn = endsInReturn indent level body := by
  unfold Completes
  cases htest : (lastLineOf? body).any beginsWithReturn with
  | false =>
      have hadded : ensureReturn body ≠ body := by
        unfold ensureReturn
        simp [htest]
      simp [endsInReturn_of_added indent level htest, hadded]
  | true =>
      have hkept : ensureReturn body = body := if_pos htest
      rw [hkept]
      exact ⟨fun h => h.1.symm, fun h => ⟨h.symm, fun _ => rfl⟩⟩

end Program

theorem Go.line_feed_not_mem_quote (text : String) : '\n' ∉ (quote text).toList := by
  intro hmem
  have hquote : (quote text).toList = '"' :: (escape text).toList ++ ['"'] := by
    simp [quote]
  rw [hquote, List.mem_append, List.mem_cons, List.mem_singleton] at hmem
  rcases hmem with (h | hescaped) | h
  · cases h
  · exact absurd (not_isControl_of_mem_escape hescaped) (by decide)
  · cases h

theorem Text.line_feed_not_mem_decimalText (n : Nat) : '\n' ∉ (decimalText n).toList := by
  intro hmem
  rw [decimalText, String.toList_ofList] at hmem
  exact absurd (Go.isDigit_of_mem_decimal hmem) (by decide)

theorem Widget.line_feed_not_mem_call (w : Widget) : '\n' ∉ w.call.toList := by
  have hquote := Go.line_feed_not_mem_quote
  have hnumber := Text.line_feed_not_mem_decimalText
  unfold call buttonName editorName
  cases w
  all_goals
    simp only [String.toList_append, List.mem_append, hquote, hnumber]
    decide

/-- What a component does when it is used stands before the statements that lay it out. -/
theorem Component.Standard.exists_render_eq {c : Component} (hc : c.Standard)
    (handlers : Option Handlers) : ∃ before, c.render handlers = before ++ c.body := by
  rw [hc.render_eq]
  unfold reacting
  split
  · exact ⟨[_], rfl⟩
  · exact ⟨[], rfl⟩

/-- The slot of a built-in component returns as it is. -/
theorem Builtin.slot_returns {kind : Builtin} {index : Nat} {e : Ui.Element} {c : Component}
    (h : kind.translator index e = .ok c) (handlers : Option Handlers) (indent : Indent)
    (level : Nat) :
    Program.endsInReturn indent level (c.render handlers) = true ∧
      Program.ensureReturn (c.render handlers) = c.render handlers := by
  obtain ⟨w, rfl⟩ := exists_widget h
  obtain ⟨before, hrender⟩ := w.standard_component.exists_render_eq handlers
  rw [hrender, w.body_component]
  refine ⟨?_, Program.ensureReturn_layOut before w.call⟩
  have hspace : Go.isSpace 'r' = false := rfl
  apply Program.endsInReturn_concat
  · simpa using w.line_feed_not_mem_call
  · have hblank : Text.isBlank 'r' = false := rfl
    simp [Text.isBlankText, hblank]
  · simp [Go.beginsWithKeyword, Go.afterBlanks, hspace]
    rfl

open Program in
/-- Statements are made to end in a return, and are left as they are if they do already,
exactly if the line that the search finds begins with the letters of `return` just when the
last line that shows anything begins with the word. This is so if the search finds that line,
and if the line does not begin with these letters without beginning with the word; it is so for
every component that is known from the start, whatever its handler is. -/
theorem return_is_ensured_where_tests_agree (indent : Indent) (level : Nat) :
    (∀ body : List Fragment, (∀ text ∈ textsOf body, '\n' ∉ text.toList) →
      (Completes indent level body ↔
        (lastLineOf? body).any beginsWithReturn =
          ((Line.lastShown? (linesOf level body)).map Line.text).any
            (Go.beginsWithKeyword "return")) ∧
      ((∀ header ∈ Row.openHeader? (rowsOf body), lastLineOf? body = some header) →
        (∀ text ∈ lastLineOf? body, Text.isBlankText text = false ∧
          beginsWithReturn text = Go.beginsWithKeyword "return" text) →
        Completes indent level body)) ∧
    ∀ (kind : Builtin) (index : Nat) (e : Ui.Element) (c : Component),
      kind.translator index e = .ok c → ∀ handlers : Option Handlers,
        endsInReturn indent level (c.render handlers) = true ∧
          ensureReturn (c.render handlers) = c.render handlers := by
  refine ⟨?_, fun kind index e c h handlers => Builtin.slot_returns h handlers indent level⟩
  intro body hfeed
  rw [completes_iff, endsInReturn_eq indent level hfeed]
  refine ⟨Iff.rfl, ?_⟩
  intro hheader hlast
  rw [map_text_lastShown?]
  rw [lastLineOf?_eq_lastOwn?] at hheader hlast ⊢
  have hfound : Row.lastOwn? (rowsOf body) = Row.lastShown? (rowsOf body) :=
    (Row.lastOwn?_eq_lastShown?_iff (rowsOf body)).mpr
      ⟨fun text htext => (hlast text htext).1, hheader⟩
  rw [← hfound]
  cases hlines : Row.lastOwn? (rowsOf body) with
  | none => rfl
  | some text => exact (hlast text hlines).2

/-- A block that ends in a return but is not the last to show something, a return behind
which stands a blank line, and a button. -/
theorem return_is_ensured_where_tests_agree_block :
    let body : List Fragment := [.block "if ok \x7b" [.line "return a"] (some "\x7d"), .blank]
    let other : List Fragment := [.line "run()", .indented [.line " return"], .blank]
    (∀ text ∈ textsOf body, '\n' ∉ text.toList) ∧ (∀ text ∈ textsOf other, '\n' ∉ text.toList) ∧
      Program.Completes .tab 6 body ∧ Program.Completes .tab 6 other ∧
      ∃ c, Builtin.button.translator 0 ((Ui.Element.ofKind "button").withValue "a\n") = .ok c ∧
        Program.endsInReturn .tab 6 (c.render none) = true := by
  intro body other
  have hbody : ∀ text ∈ textsOf body, '\n' ∉ text.toList := by decide
  have hother : ∀ text ∈ textsOf other, '\n' ∉ text.toList := by decide
  obtain ⟨hcompleted, hbuiltin⟩ := return_is_ensured_where_tests_agree .tab 6
  refine ⟨hbody, hother, (hcompleted body hbody).1.mpr (by decide +kernel), ?_, _, rfl,
    (hbuiltin .button 0 ((Ui.Element.ofKind "button").withValue "a\n") _ rfl none).1⟩
  exact (hcompleted other hother).2 (by decide +kernel) (by decide +kernel)

/-- A call of a function whose name begins with the letters of `return` is taken for a
return, so nothing is added. -/
theorem longer_name_passes_for_return :
    (∀ text ∈ textsOf [.line "returnValue()"], '\n' ∉ text.toList) ∧
      Program.ensureReturn [.line "returnValue()"] = [.line "returnValue()"] ∧
      Program.endsInReturn .tab 0 [.line "returnValue()"] = false := by
  exact ⟨by decide, rfl, by decide +kernel⟩

end GioForge
