import GioForge.Proofs.Code.Placement
import Mathlib.Data.List.Induction

/-!
The line a fragment ends with. The search for it goes back over the tree and stops at the
first line of its own or close of a block, so what it finds is the last of these. The last
line that shows anything in what the fragment is written as may be another one, for two
reasons: the line found may be blank, and the search passes over the headers of blocks. The
main statement says that these are the only reasons.
-/

namespace GioForge.Code

/-- A written line by what it is in its fragment. -/
inductive Row where
  /-- A line of its own, or the line that closes a block. -/
  | own (text : String)
  /-- The header of a block. -/
  | header (text : String)
  /-- An empty line. -/
  | gap

namespace Row

def text : Row → String
  | .own text => text
  | .header text => text
  | .gap => ""

def own? : Row → Option String
  | .own text => some text
  | _ => none

/-- The last text that is a line of its own or closes a block. -/
def lastOwn? (rows : List Row) : Option String :=
  (rows.filterMap own?).getLast?

/-- The last text with a character other than white space. -/
def lastShown? (rows : List Row) : Option String :=
  Text.lastShownBy? id (rows.map text)

/-- The header that stands open behind a row, given the one that does before it. -/
def openAfter (header : Option String) : Row → Option String
  | .own _ => none
  | .header text => if Text.isBlankText text then header else some text
  | .gap => header

/-- The last header that shows anything, if no line of its own and no close stands behind it. -/
def openHeader? (rows : List Row) : Option String :=
  rows.foldl openAfter none

/-- A row at the end is the last one if it has a text of its own. -/
theorem lastOwn?_concat (rows : List Row) (row : Row) :
    lastOwn? (rows ++ [row]) = row.own?.or (lastOwn? rows) := by
  unfold lastOwn?
  rw [List.filterMap_append, List.getLast?_append]
  cases row <;> rfl

theorem lastShown?_concat (rows : List Row) (row : Row) :
    lastShown? (rows ++ [row]) =
      if Text.isBlankText row.text then lastShown? rows else some row.text := by
  unfold lastShown?
  rw [List.map_append, List.map_singleton, Text.lastShownBy?_concat]
  rfl

/-- What a row at the end does to the header that waits for its block. -/
theorem openHeader?_concat (rows : List Row) (row : Row) :
    openHeader? (rows ++ [row]) = openAfter (openHeader? rows) row := by
  simp [openHeader?]

/-- The last line of its own is the last that shows anything, unless it is blank or stands
before an open header with another text. -/
theorem lastOwn?_eq_lastShown?_iff (rows : List Row) :
    lastOwn? rows = lastShown? rows ↔
      (∀ text ∈ lastOwn? rows, Text.isBlankText text = false) ∧
        ∀ header ∈ openHeader? rows, lastOwn? rows = some header := by
  -- Both look from the end, so a row is added there: one that shows nothing changes neither
  -- side, a line of its own settles both, and a header is seen by one of the two only.
  induction rows using List.reverseRecOn with
  | nil => simp [lastOwn?, lastShown?, openHeader?, Text.lastShownBy?]
  | append_singleton rows row ih =>
      rw [lastOwn?_concat, lastShown?_concat, openHeader?_concat]
      cases row with
      | gap => simpa [own?, text, openAfter, Text.isBlankText] using ih
      | own found =>
          by_cases hblank : Text.isBlankText found = true
          · have hother : some found ≠ lastShown? rows := by
              intro h
              have hshown := Text.not_isBlankText_of_lastShownBy? h.symm
              rw [id, hblank] at hshown
              cases hshown
            simp [own?, text, openAfter, hblank, hother]
          · simp [own?, text, openAfter, hblank]
      | header found =>
          by_cases hblank : Text.isBlankText found = true
          · simpa [own?, text, openAfter, hblank] using ih
          · simp only [own?, text, openAfter, hblank, Option.none_or, Option.mem_def,
              Bool.false_eq_true, if_false, Option.some.injEq, forall_eq']
            constructor
            · intro h
              refine ⟨?_, h⟩
              rw [h]
              rintro _ ⟨⟩
              exact Bool.eq_false_iff.mpr hblank
            · exact And.right

end Row

namespace Fragment

mutual

def rows : Fragment → List Row
  | .line text => [.own text]
  | .blank => [.gap]
  | .block header body close => .header header :: rowsOf body ++ close.toList.map .own
  | .indented body => rowsOf body
  | .sequence body => rowsOf body

def rowsOf : List Fragment → List Row
  | [] => []
  | fragment :: rest => fragment.rows ++ rowsOf rest

end

mutual

/-- How deep a fragment stands does not change what is written in its lines. -/
theorem map_text_lines (level : Nat) (fragment : Fragment) :
    (fragment.lines level).map Line.text = fragment.rows.map Row.text := by
  cases fragment with
  | line text => rfl
  | blank => rfl
  | block header body close =>
      have hbody := map_text_linesOf (level + 1) body
      cases close <;> simp [lines, rows, hbody, Row.text]
  | indented body => exact map_text_linesOf (level + 1) body
  | sequence body => exact map_text_linesOf level body

theorem map_text_linesOf (level : Nat) (fragments : List Fragment) :
    (linesOf level fragments).map Line.text = (rowsOf fragments).map Row.text := by
  cases fragments with
  | nil => rfl
  | cons fragment rest =>
      rw [linesOf, rowsOf, List.map_append, List.map_append, map_text_lines, map_text_linesOf]

end

mutual

/-- The search finds the last line of its own or close of a block. -/
theorem lastLine?_eq_lastOwn? (fragment : Fragment) :
    fragment.lastLine? = Row.lastOwn? fragment.rows := by
  cases fragment with
  | line text => rfl
  | blank => rfl
  | block header body close =>
      have hbody := lastLineOf?_eq_lastOwn? body
      cases close with
      | none => simpa [lastLine?, rows, Row.lastOwn?, Row.own?] using hbody
      | some text => exact (Row.lastOwn?_concat (.header header :: rowsOf body) (.own text)).symm
  | indented body => exact lastLineOf?_eq_lastOwn? body
  | sequence body => exact lastLineOf?_eq_lastOwn? body

/-- The search from the end through nested fragments finds the last row with a text of its own.
-/
theorem lastLineOf?_eq_lastOwn? (fragments : List Fragment) :
    lastLineOf? fragments = Row.lastOwn? (rowsOf fragments) := by
  cases fragments with
  | nil => rfl
  | cons fragment rest =>
      have hfragment := lastLine?_eq_lastOwn? fragment
      have hrest := lastLineOf?_eq_lastOwn? rest
      unfold Row.lastOwn? at hfragment hrest ⊢
      rw [lastLineOf?, rowsOf, List.filterMap_append, List.getLast?_append, ← hfragment, ← hrest]
      cases lastLineOf? rest <;> rfl

end

end Fragment

namespace Line

/-- The last line that has a character other than white space. -/
def lastShown? (lines : List Line) : Option Line :=
  Text.lastShownBy? Line.text lines

/-- Indentation is white space. -/
theorem isBlankText_inner (indent : Indent) (line : Line) :
    Text.isBlankText (String.ofList (line.inner indent)) = Text.isBlankText line.text := by
  have hmargin : (String.join (List.replicate line.level indent.unit)).toList.all Text.isBlank =
      true := by
    rw [List.all_eq_true]
    intro c hc
    rcases Indent.eq_of_mem_margin hc with rfl | rfl <;> rfl
  unfold Text.isBlankText inner
  rw [String.toList_ofList]
  split
  · next hempty => simp [String.isEmpty_iff.mp hempty]
  · rw [List.all_append, hmargin, Bool.true_and]

theorem inner_of_shown {line : Line} (h : Text.isBlankText line.text = false) (indent : Indent) :
    String.ofList (line.inner indent) =
      String.join (List.replicate line.level indent.unit) ++ line.text := by
  have hempty : ¬line.text.isEmpty = true := by
    intro hempty
    rw [String.isEmpty_iff.mp hempty] at h
    cases h
  unfold inner
  rw [if_neg hempty, ← String.toList_append, String.ofList_toList]

end Line

/-- The last line that shows anything in written fragments is that of their lines, behind its
indentation. -/
theorem Writer.lastShown?_emitAll {fragments : List Fragment}
    (h : ∀ text ∈ Fragment.textsOf fragments, '\n' ∉ text.toList) (indent : Indent) (level : Nat) :
    Text.lastShown? (({ indent, level } : Writer).emitAll fragments).text =
      (Line.lastShown? (Fragment.linesOf level fragments)).map fun line =>
        String.join (List.replicate line.level indent.unit) ++ line.text := by
  have hlines := Fragment.line_feed_not_mem_inner h indent level
  -- Behind the last line feed stands an empty line, which shows nothing.
  have hempty : Text.isBlankText "" = true := rfl
  have hinner : Text.lastShown? (({ indent, level } : Writer).emitAll fragments).text =
      (Line.lastShown? (Fragment.linesOf level fragments)).map fun line =>
        String.ofList (line.inner indent) := by
    unfold Text.lastShown? Line.lastShown?
    rw [text_emitAll, String.toList_ofList, Text.splitOn_line_feeds hlines, List.map_append,
      List.map_singleton, Text.lastShownBy?_concat, id, String.ofList_nil, if_pos hempty,
      List.map_map, Text.lastShownBy?_map,
      Text.lastShownBy?_congr (fun line => line.isBlankText_inner indent)]
    rfl
  rw [hinner]
  cases hshown : Line.lastShown? (Fragment.linesOf level fragments) with
  | none => rfl
  | some line =>
      have hline := Text.not_isBlankText_of_lastShownBy? hshown
      exact congrArg some (Line.inner_of_shown hline indent)

theorem Fragment.map_text_lastShown? (level : Nat) (fragments : List Fragment) :
    (Line.lastShown? (linesOf level fragments)).map Line.text =
      Row.lastShown? (rowsOf fragments) := by
  unfold Row.lastShown? Line.lastShown?
  rw [← map_text_linesOf level, Text.lastShownBy?_map]
  rfl

/-- The search for the last line of a fragment finds its last line of its own or close of a
block. What it finds is the last line that shows anything in the written fragment, without
its indentation, exactly if it is not blank and no header with another text stands open
behind it; if it finds nothing, the fragment shows nothing exactly if no header stands open. -/
theorem last_line_is_shown_unless_blank_or_passed_over (fragment : Fragment)
    (h : ∀ text ∈ fragment.texts, '\n' ∉ text.toList) (indent : Indent) (level : Nat) :
    let shown := Line.lastShown? (fragment.lines level)
    Text.lastShown? (({ indent, level } : Writer).emit fragment).text =
        shown.map (fun line => String.join (List.replicate line.level indent.unit) ++ line.text) ∧
      fragment.lastLine? = Row.lastOwn? fragment.rows ∧
      (fragment.lastLine? = shown.map Line.text ↔
        (∀ text ∈ fragment.lastLine?, Text.isBlankText text = false) ∧
          ∀ header ∈ Row.openHeader? fragment.rows, fragment.lastLine? = some header) := by
  rw [← Fragment.textsOf_singleton] at h
  have hlines : Fragment.linesOf level [fragment] = fragment.lines level := by
    simp [Fragment.linesOf]
  have hrows : Fragment.rowsOf [fragment] = fragment.rows := by
    simp [Fragment.rowsOf]
  have hwritten := Writer.lastShown?_emitAll h indent level
  have hshown := Fragment.map_text_lastShown? level [fragment]
  rw [hlines] at hwritten hshown
  rw [hrows] at hshown
  refine ⟨hwritten, fragment.lastLine?_eq_lastOwn?, ?_⟩
  rw [hshown, fragment.lastLine?_eq_lastOwn?]
  exact Row.lastOwn?_eq_lastShown?_iff fragment.rows

/-- A blank line and a header without text stand behind the last line. -/
theorem last_line_is_shown_unless_blank_or_passed_over_nested :
    let fragment : Fragment :=
      .sequence [.line "a", .block "if ok \x7b" [.line "b", .blank] none, .block " " [] none]
    (∀ text ∈ fragment.texts, '\n' ∉ text.toList) ∧
      Text.lastShown? (({ level := 1 } : Writer).emit fragment).text = some "\t\tb" ∧
      fragment.lastLine? = (Line.lastShown? (fragment.lines 1)).map Line.text := by
  intro fragment
  have hfeed : ∀ text ∈ fragment.texts, '\n' ∉ text.toList := by decide
  have hlast : fragment.lastLine? = some "b" := rfl
  obtain ⟨hwritten, _, hagree⟩ :=
    last_line_is_shown_unless_blank_or_passed_over fragment hfeed .tab 1
  refine ⟨hfeed, hwritten, hagree.mpr ?_⟩
  rw [hlast]
  exact ⟨by decide, by decide⟩

/-- The header of a block without a body and a close is passed over, and an empty line is
found. -/
theorem open_header_is_passed_over :
    (Fragment.block "case x:" [] none).lastLine? = none ∧
      Text.lastShown? (({} : Writer).emit (.block "case x:" [] none)).text = some "case x:" ∧
      (Fragment.line "").lastLine? = some "" ∧
      Text.lastShown? (({} : Writer).emit (.line "")).text = none := by
  decide +kernel

end GioForge.Code
