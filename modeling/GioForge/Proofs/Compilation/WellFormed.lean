import GioForge.Proofs.Compilation.PageBrackets
import GioForge.Proofs.Go.Lexemes
import GioForge.Proofs.Text.Lines

/-!
The form of compiled programs. A compiled program can be scanned by the lexical
grammar of Go, each of its literals is closed on the line it opens on and has only
valid escapes, all brackets outside literals and comments are nested and closed, no
line ends in white space, and the file ends in one line feed. The last two are read off
the tokens of each line: where a line has no token for a line feed and ends in a token
that is no white space, the same holds of its characters.
-/

namespace GioForge

open Code Go

namespace Go

/-- The last character of the token is not white space. -/
def Token.endsVisibly : Token → Bool
  | .blank _ => false
  | .comment text => text.toList.getLast?.any fun c => !Text.isBlank c
  | .word text => text.toList.getLast?.any fun c => !Text.isBlank c
  | .number text => text.toList.getLast?.any fun c => !Text.isBlank c
  | .literal _ _ => true
  | .mark c => !Text.isBlank c

theorem Token.getLast?_spelling {token : Token} (h : token.endsVisibly = true) :
    ∃ c, token.spelling.getLast? = some c ∧ Text.isBlank c = false := by
  have htext : ∀ text : String, (text.toList.getLast?.any fun c => !Text.isBlank c) = true →
      ∃ c, text.toList.getLast? = some c ∧ Text.isBlank c = false := by
    intro text hany
    obtain ⟨c, hc, hblank⟩ := (Option.any_eq_true _ _).mp hany
    exact ⟨c, hc, by simpa using hblank⟩
  cases token with
  | blank c => cases h
  | comment text =>
      obtain ⟨c, hc, hblank⟩ := htext text h
      refine ⟨c, ?_, hblank⟩
      simp [spelling, List.getLast?_cons, hc]
  | word text => exact htext text h
  | number text => exact htext text h
  | literal contents bytes => exact ⟨'"', by simp [spelling, List.getLast?_cons], rfl⟩
  | mark c => exact ⟨c, rfl, by simpa [endsVisibly] using h⟩

/-- The tokens hold no line feed and do not end in white space. -/
def isTidy (tokens : List Token) : Bool :=
  tokens.all (fun token => decide (token ≠ .blank '\n')) && tokens.getLast?.all Token.endsVisibly

/-- Tidy tokens stand in one line. -/
theorem line_feed_not_mem_of_isTidy {text : String} {tokens : List Token}
    (h : lex text = some tokens) (htidy : isTidy tokens = true) : '\n' ∉ text.toList := by
  simp only [isTidy, Bool.and_eq_true] at htidy
  apply line_feed_not_mem_of_lex h
  intro hmem
  have hne := List.all_eq_true.mp htidy.1 _ hmem
  simp at hne

theorem isBlank_getLast?_of_isTidy {text : String} {tokens : List Token}
    (h : lex text = some tokens) (htidy : isTidy tokens = true) :
    ∀ c ∈ text.toList.getLast?, Text.isBlank c = false := by
  simp only [isTidy, Bool.and_eq_true] at htidy
  rw [← spelling_lex h]
  cases hlast : tokens.getLast? with
  | none =>
      rw [List.getLast?_eq_none_iff.mp hlast]
      simp
  | some token =>
      obtain ⟨init, rfl⟩ := List.getLast?_eq_some_iff.mp hlast
      have hvisible : token.endsVisibly = true := by simpa [hlast] using htidy.2
      obtain ⟨c, hc, hblank⟩ := Token.getLast?_spelling hvisible
      intro d hd
      simp only [List.flatMap_append, List.flatMap_singleton, List.getLast?_append, hc,
        Option.some_or, Option.mem_def, Option.some.injEq] at hd
      exact hd ▸ hblank

end Go

def Code.Line.chars (line : Line) : List Char :=
  if line.text.isEmpty then [] else List.replicate line.level '\t' ++ line.text.toList

theorem Code.Line.toList_render (line : Line) :
    (line.render .tab).toList = line.chars ++ ['\n'] := by
  have hmargin : (List.replicate line.level Indent.tab.unit).flatMap String.toList =
      List.replicate line.level '\t' := by
    induction line.level with
    | zero => rfl
    | succ n ih =>
        rw [List.replicate_succ, List.flatMap_cons, ih]
        rfl
  unfold render chars
  split
  · rfl
  · simp [hmargin]

theorem Program.toList_source (program : Program) :
    program.source.toList = program.lines.flatMap fun line => line.chars ++ ['\n'] := by
  rw [source, render_eq_join, linesOf_fragments, String.toList_join, List.flatMap_map]
  apply List.flatMap_congr
  intro line _
  exact line.toList_render

namespace Page

/-- Every line that a page writes is tidy. -/
theorem Written.isTidy {page : Page} {tokens : List Token} (h : page.Written tokens) :
    isTidy tokens = true := by
  cases h with
  | fixed h =>
      have hall : ∀ tokens ∈ Program.fixedTokens, Go.isTidy tokens = true := by
        decide +kernel
      exact hall tokens h
  | path path => rfl
  | @option option h => cases option <;> rfl
  | @declaration v h =>
      rcases (page.mem_state v).mp h with ⟨_, _, _, _, rfl⟩ | ⟨_, _, _, rfl⟩ | ⟨_, rfl⟩
      · rw [StateVariable.tokens_clickable]
        rfl
      · rw [StateVariable.tokens_editor]
        rfl
      · rw [StateVariable.tokens_string]
        rfl
  | reaction h htokens =>
      obtain ⟨_, _, _, _, rfl | ⟨_, rfl⟩ | rfl⟩ := Widget.mem_reactionTokens htokens
      all_goals rfl
  | @widget w h => cases w <;> rfl
  | message h htokens =>
      have hall : ((scanned (Fragment.linesOf 6 Compilation.messageSlot)).all Go.isTidy) = true :=
        rfl
      exact List.all_eq_true.mp hall tokens htokens

theorem exists_tokens_of_mem {page : Page} {line : Line} (h : line ∈ page.program.lines) :
    ∃ tokens, lex line.text = some tokens ∧ page.Written tokens := by
  have hmem : lex line.text ∈ page.program.lines.map fun line => lex line.text :=
    List.mem_map_of_mem h
  rw [page.scans_lines] at hmem
  obtain ⟨tokens, htokens, hlex⟩ := List.mem_map.mp hmem
  exact ⟨tokens, hlex.symm, written_of_mem htokens⟩

theorem line_feed_not_mem_chars {page : Page} {line : Line} (h : line ∈ page.program.lines) :
    '\n' ∉ line.chars := by
  obtain ⟨tokens, hlex, hwritten⟩ := exists_tokens_of_mem h
  have htext := line_feed_not_mem_of_isTidy hlex hwritten.isTidy
  unfold Line.chars
  split
  · simp
  · simp [htext]

theorem isBlank_getLast?_chars {page : Page} {line : Line} (h : line ∈ page.program.lines) :
    ∀ c ∈ line.chars.getLast?, Text.isBlank c = false := by
  obtain ⟨tokens, hlex, hwritten⟩ := exists_tokens_of_mem h
  have htext := isBlank_getLast?_of_isTidy hlex hwritten.isTidy
  unfold Line.chars
  split
  · simp
  · next hempty =>
      -- The text is not empty, so the last character of the line is that of the text.
      cases hlast : line.text.toList.getLast? with
      | none =>
          have hnil : line.text = "" := by simpa using hlast
          exact absurd (String.isEmpty_iff.mpr hnil) hempty
      | some c =>
          rw [hlast] at htext
          simpa [List.getLast?_append, hlast] using htext

/-- Cut at its line feeds, the source gives its lines and nothing behind the last one. -/
theorem splitOn_source (page : Page) :
    page.program.source.toList.splitOn '\n' = page.program.lines.map Line.chars ++ [[]] := by
  rw [Program.toList_source, ← Text.splitOn_line_feeds, List.flatMap_map]
  intro chars hchars
  obtain ⟨line, hline, rfl⟩ := List.mem_map.mp hchars
  exact line_feed_not_mem_chars hline

end Page

/-- The source ends with the brace of its function and a line feed. -/
theorem Program.source_ends (program : Program) :
    ∃ text, program.source.toList = text ++ ['\x7d', '\n'] := by
  have htail : tailLines = tailLines.dropLast ++ [⟨0, "\x7d"⟩] := rfl
  have hlast : Line.chars ⟨0, "\x7d"⟩ ++ ['\n'] = ['\x7d', '\n'] := rfl
  rw [toList_source, lines, htail, ← List.append_assoc, List.flatMap_append,
    List.flatMap_singleton, hlast]
  exact ⟨_, rfl⟩

/-- A compiled program can be scanned, its literals hold only valid escapes and no line
feed, its brackets are nested and closed, no line of it ends in white space, and it ends
in exactly one line feed. -/
theorem compiled_source_is_well_formed (ui : Ui.Graph) (relation : Relation.Graph)
    {source : String} (h : compile ui (resolveActions relation) = .ok source) :
    ∃ tokens : List Token,
      lex source = some tokens ∧
      (∀ contents bytes, .literal contents bytes ∈ tokens →
        '\n' ∉ contents.toList ∧
        transduce Reading.step .plain contents.toList = some (bytes, .plain)) ∧
      brackets [] tokens = some [] ∧
      (∀ line ∈ source.toList.splitOn '\n', ∀ c ∈ line.getLast?, Text.isBlank c = false) ∧
      ∃ text last, source.toList = text ++ [last, '\n'] ∧ last ≠ '\n' := by
  obtain ⟨_, widgets, _, _, _, rfl⟩ := Compilation.page_of_compile h
  have hlex := (Page.of ui relation widgets).lex_source
  refine ⟨_, hlex, ?_, ?_, ?_, ?_⟩
  · intro contents bytes hliteral
    have hread := sound_of_lex hlex _ hliteral
    exact ⟨line_feed_not_mem_of_read hread, hread⟩
  · rw [← brackets_significant, (Page.scans_lines _).significant_eq]
    exact Page.bracketed_lineTokens _ []
  · intro line hline
    rw [Page.splitOn_source] at hline
    rcases List.mem_append.mp hline with hline | hrest
    · obtain ⟨written, hwritten, rfl⟩ := List.mem_map.mp hline
      exact Page.isBlank_getLast?_chars hwritten
    · rw [List.mem_singleton.mp hrest]
      simp
  · obtain ⟨text, htext⟩ := (Page.of ui relation widgets).program.source_ends
    exact ⟨text, '\x7d', htext, by decide⟩

/-- A title that ends in a backslash, a value that ends in blanks and a message with
brackets and a line feed. -/
theorem compiled_source_is_well_formed_hostile :
    ∃ source tokens,
      compile
        { window := some { title := some "(\\" }
          elements := [(Ui.Element.ofKind "button").withValue "[ \t" |>.withAction "go"] }
        (resolveActions ⟨[.of "go" (.text "\x7d\n)\"")]⟩) = .ok source ∧
      lex source = some tokens ∧
      brackets [] tokens = some [] ∧
      ∀ line ∈ source.toList.splitOn '\n', ∀ c ∈ line.getLast?, Text.isBlank c = false := by
  obtain ⟨tokens, hlex, _, hbrackets, hlines, _⟩ := compiled_source_is_well_formed
    { window := some { title := some "(\\" }
      elements := [(Ui.Element.ofKind "button").withValue "[ \t" |>.withAction "go"] }
    ⟨[.of "go" (.text "\x7d\n)\"")]⟩ rfl
  exact ⟨_, tokens, rfl, hlex, hbrackets, hlines⟩

end GioForge
