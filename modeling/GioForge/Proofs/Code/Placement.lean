import GioForge.Proofs.Code.Layout
import GioForge.Proofs.Text.Lines

/-!
Placing fragments. The lines of a fragment at a deeper level are its lines at the outermost
level moved in, so a fragment whose strings are each on one line is written anywhere as it
is written at the outermost level, with a margin before every line that is not empty.
Fragments are written one after the other, and it makes no difference whether some of them
are held together in a sequence.
-/

namespace GioForge.Code

/-- Indentation is made of blanks and tabs. -/
theorem Indent.eq_of_mem_margin {indent : Indent} {level : Nat} {c : Char}
    (h : c ∈ (String.join (List.replicate level indent.unit)).toList) : c = ' ' ∨ c = '\t' := by
  have hunit : indent.unit.toList.all Fragment.isIndent = true := by
    unfold Indent.unit
    split
    · rfl
    · split_ifs <;> rfl
  rw [String.toList_join] at h
  obtain ⟨unit, hmem, hc⟩ := List.mem_flatMap.mp h
  obtain rfl := List.eq_of_mem_replicate hmem
  simpa [Fragment.isIndent] using List.all_eq_true.mp hunit c hc

def Line.deeper (depth : Nat) (line : Line) : Line :=
  { line with level := line.level + depth }

/-- The characters of a line as it is written, but for the line feed behind them. -/
def Line.inner (indent : Indent) (line : Line) : List Char :=
  if line.text.isEmpty then []
  else (String.join (List.replicate line.level indent.unit)).toList ++ line.text.toList

theorem Line.toList_render_eq_inner (indent : Indent) (line : Line) :
    (line.render indent).toList = line.inner indent ++ ['\n'] := by
  unfold render inner
  split
  · rfl
  · simp

/-- A line that stands deeper only has a longer margin, and an empty one has none. -/
theorem Line.inner_deeper (indent : Indent) (depth : Nat) (line : Line) :
    (line.deeper depth).inner indent =
      if (line.inner indent).isEmpty then []
      else (String.join (List.replicate depth indent.unit)).toList ++ line.inner indent := by
  unfold inner deeper
  by_cases hempty : line.text.isEmpty = true
  · simp [hempty]
  · have htext : line.text.toList ≠ [] := by
      simpa [String.isEmpty_iff] using hempty
    simp [hempty, htext, Nat.add_comm line.level depth, ← List.replicate_append_replicate]

namespace Fragment

mutual

def texts : Fragment → List String
  | .line text => [text]
  | .blank => []
  | .block header body close => header :: textsOf body ++ close.toList
  | .indented body => textsOf body
  | .sequence body => textsOf body

def textsOf : List Fragment → List String
  | [] => []
  | fragment :: rest => fragment.texts ++ textsOf rest

end

mutual

/-- The text of a line is a string of the fragment, unless the line is empty. -/
theorem text_mem_texts {fragment : Fragment} {level : Nat} {line : Line}
    (h : line ∈ fragment.lines level) : line.text = "" ∨ line.text ∈ fragment.texts := by
  cases fragment with
  | line text =>
      rw [List.mem_singleton.mp h]
      exact Or.inr List.mem_cons_self
  | blank =>
      rw [List.mem_singleton.mp h]
      exact Or.inl rfl
  | block header body close =>
      rcases List.mem_append.mp h with hopen | hclose
      · rcases List.mem_cons.mp hopen with rfl | hbody
        · exact Or.inr List.mem_cons_self
        · apply (text_mem_textsOf hbody).imp_right
          intro htext
          exact List.mem_append_left _ (List.mem_cons_of_mem _ htext)
      · obtain ⟨text, htext, rfl⟩ := List.mem_map.mp hclose
        exact Or.inr (List.mem_append_right _ htext)
  | indented body =>
      have hbody : line ∈ linesOf (level + 1) body := h
      exact text_mem_textsOf hbody
  | sequence body =>
      have hbody : line ∈ linesOf level body := h
      exact text_mem_textsOf hbody

/-- Layout makes up no text: a line is empty or holds a text of the fragments. -/
theorem text_mem_textsOf {fragments : List Fragment} {level : Nat} {line : Line}
    (h : line ∈ linesOf level fragments) : line.text = "" ∨ line.text ∈ textsOf fragments := by
  cases fragments with
  | nil => cases h
  | cons fragment rest =>
      rcases List.mem_append.mp h with hfragment | hrest
      · exact (text_mem_texts hfragment).imp_right (List.mem_append_left _)
      · exact (text_mem_textsOf hrest).imp_right (List.mem_append_right _)

end

mutual

/-- The lines of a fragment further in are its lines moved in. -/
theorem lines_add (level depth : Nat) (fragment : Fragment) :
    fragment.lines (level + depth) = (fragment.lines level).map (Line.deeper depth) := by
  cases fragment with
  | line text => rfl
  | blank => rfl
  | block header body close =>
      have hbody := linesOf_add (level + 1) depth body
      rw [Nat.add_right_comm] at hbody
      cases close <;> simp [lines, hbody, Line.deeper]
  | indented body =>
      have hbody := linesOf_add (level + 1) depth body
      rwa [Nat.add_right_comm] at hbody
  | sequence body => exact linesOf_add level depth body

theorem linesOf_add (level depth : Nat) (fragments : List Fragment) :
    linesOf (level + depth) fragments = (linesOf level fragments).map (Line.deeper depth) := by
  cases fragments with
  | nil => rfl
  | cons fragment rest =>
      rw [linesOf, linesOf, lines_add, linesOf_add, List.map_append]

end

theorem textsOf_singleton (fragment : Fragment) : textsOf [fragment] = fragment.texts :=
  List.append_nil _

/-- The lines of fragments whose strings are on one line each are on one line each. -/
theorem line_feed_not_mem_inner {fragments : List Fragment}
    (h : ∀ text ∈ textsOf fragments, '\n' ∉ text.toList) (indent : Indent) (level : Nat) :
    ∀ chars ∈ (linesOf level fragments).map (Line.inner indent), '\n' ∉ chars := by
  intro chars hchars
  obtain ⟨line, hline, rfl⟩ := List.mem_map.mp hchars
  have hmargin : '\n' ∉ (String.join (List.replicate line.level indent.unit)).toList := by
    intro hmem
    rcases Indent.eq_of_mem_margin hmem with h | h <;> cases h
  have htext : '\n' ∉ line.text.toList := by
    rcases text_mem_textsOf hline with hempty | hmem
    · simp [hempty]
    · exact h _ hmem
  unfold Line.inner
  split
  · exact List.not_mem_nil
  · exact fun hmem => (List.mem_append.mp hmem).elim hmargin htext

end Fragment

namespace Writer

/-- What fragments add to a text is one line after the other, each ended by a line feed. -/
theorem toList_text_emitAll (w : Writer) (fragments : List Fragment) :
    (w.emitAll fragments).text.toList = w.text.toList ++
      (Fragment.linesOf w.level fragments).flatMap fun line => line.inner w.indent ++ ['\n'] := by
  rw [emitAll_eq_write, write, String.toList_append, String.toList_join, List.flatMap_map]
  simp only [Line.toList_render_eq_inner]

/-- Fragments that start a text are nothing but their lines. -/
theorem text_emitAll (indent : Indent) (level : Nat) (fragments : List Fragment) :
    (({ indent, level } : Writer).emitAll fragments).text =
      String.ofList (((Fragment.linesOf level fragments).map (Line.inner indent)).flatMap
        (· ++ ['\n'])) := by
  rw [← String.toList_inj, toList_text_emitAll]
  simp only [String.toList_ofList, List.flatMap_map]
  rfl

/-- At any level, fragments are written as at the outermost one, with a margin before every
line that is not empty. -/
theorem emitAll_eq_indentLines (w : Writer) {fragments : List Fragment}
    (h : ∀ text ∈ Fragment.textsOf fragments, '\n' ∉ text.toList) :
    w.emitAll fragments =
      { w with
        text := w.text ++ Text.indentLines (String.join (List.replicate w.level w.indent.unit))
          (({ indent := w.indent } : Writer).emitAll fragments).text } := by
  have hlines := Fragment.line_feed_not_mem_inner h w.indent 0
  have hdeeper : Fragment.linesOf w.level fragments =
      (Fragment.linesOf 0 fragments).map (Line.deeper w.level) := by
    rw [← Fragment.linesOf_add, Nat.zero_add]
  have htext : (w.emitAll fragments).text =
      w.text ++ Text.indentLines (String.join (List.replicate w.level w.indent.unit))
        (({ indent := w.indent } : Writer).emitAll fragments).text := by
    rw [text_emitAll, Text.indentLines_line_feeds hlines, ← String.toList_inj,
      toList_text_emitAll, hdeeper]
    simp only [String.toList_append, String.toList_ofList, List.flatMap_map, Line.inner_deeper]
  rw [← htext, emitAll_eq_write]
  rfl

theorem emitAll_eq_foldl (w : Writer) (fragments : List Fragment) :
    w.emitAll fragments = fragments.foldl emit w := by
  induction fragments generalizing w with
  | nil => rfl
  | cons fragment rest ih => exact ih (w.emit fragment)

end Writer

/-- The second list is the first with some neighbouring fragments held together in sequences,
at any depth and any number of times. -/
inductive Fragment.Wraps : List Fragment → List Fragment → Prop
  | refl (fragments : List Fragment) : Wraps fragments fragments
  | wrap (before inside behind : List Fragment) :
      Wraps (before ++ inside ++ behind) (before ++ .sequence inside :: behind)
  | block {body wrapped : List Fragment} (before behind : List Fragment) (header : String)
      (close : Option String) (h : Wraps body wrapped) :
      Wraps (before ++ .block header body close :: behind)
        (before ++ .block header wrapped close :: behind)
  | indented {body wrapped : List Fragment} (before behind : List Fragment)
      (h : Wraps body wrapped) :
      Wraps (before ++ .indented body :: behind) (before ++ .indented wrapped :: behind)
  | sequence {body wrapped : List Fragment} (before behind : List Fragment)
      (h : Wraps body wrapped) :
      Wraps (before ++ .sequence body :: behind) (before ++ .sequence wrapped :: behind)
  | trans {first second third : List Fragment} (h : Wraps first second)
      (h' : Wraps second third) : Wraps first third

namespace Writer

/-- Wrapping fragments into a sequence does not change what is written. -/
theorem emitAll_of_wraps {fragments wrapped : List Fragment}
    (h : Fragment.Wraps fragments wrapped) (w : Writer) :
    w.emitAll wrapped = w.emitAll fragments := by
  induction h generalizing w with
  | refl fragments => rfl
  | wrap before inside behind =>
      rw [List.append_assoc, emitAll_append, emitAll_append, emitAll_append]
      rfl
  | block before behind header close h ih =>
      simp only [emitAll_append, emitAll, emit, ih]
  | indented before behind h ih =>
      rw [emitAll_append, emitAll_append, emitAll, emitAll, emit, emit, ih]
  | sequence before behind h ih =>
      rw [emitAll_append, emitAll_append, emitAll, emitAll, emit, emit, ih]
  | trans h h' ih ih' => rw [ih', ih]

end Writer

/-- A fragment whose strings are on one line each can be placed at any depth: whatever the
indentation, the level and the text written before, it adds the lines that it has at the
outermost level, each with the indentation of the level before it unless it is empty, and
changes nothing else. A list of fragments is written as its fragments one after the other,
and holding fragments together in sequences changes nothing. -/
theorem fragments_fit_any_depth (w : Writer) :
    (∀ fragment : Fragment, (∀ text ∈ fragment.texts, '\n' ∉ text.toList) →
      w.emit fragment =
        { w with
          text := w.text ++ Text.indentLines (String.join (List.replicate w.level w.indent.unit))
            (({ indent := w.indent } : Writer).emit fragment).text }) ∧
    (∀ fragments : List Fragment, w.emitAll fragments = fragments.foldl Writer.emit w) ∧
    ∀ fragments wrapped : List Fragment, Fragment.Wraps fragments wrapped →
      w.emitAll wrapped = w.emitAll fragments := by
  refine ⟨?_, w.emitAll_eq_foldl, ?_⟩
  · intro fragment h
    rw [← Fragment.textsOf_singleton] at h
    exact w.emitAll_eq_indentLines h
  · intro fragments wrapped h
    exact Writer.emitAll_of_wraps h w

/-- A block with an empty line and a deeper one in it, written on the second level with
blanks and behind other text, and the same block with its body in a sequence. -/
theorem fragments_fit_any_depth_block :
    let w : Writer := { indent := .blanks 2, level := 2, text := "x\n" }
    let body : List Fragment := [.line "", .indented [.line "run()"]]
    let block : Fragment := .block "if ok \x7b" body (some "\x7d")
    let wrapped : Fragment := .block "if ok \x7b" [.sequence body] (some "\x7d")
    (∀ text ∈ block.texts, '\n' ∉ text.toList) ∧ Fragment.Wraps [block] [wrapped] ∧
      w.emit block = { w with text := "x\n    if ok \x7b\n\n        run()\n    \x7d\n" } ∧
      w.emitAll [wrapped] = w.emitAll [block] := by
  intro w body block wrapped
  have hfeed : ∀ text ∈ block.texts, '\n' ∉ text.toList := by decide
  have hwraps : Fragment.Wraps [block] [wrapped] :=
    .block [] [] "if ok \x7b" (some "\x7d") (.wrap [] body [])
  obtain ⟨hplaced, _, hwrapped⟩ := fragments_fit_any_depth w
  refine ⟨hfeed, hwraps, (hplaced block hfeed).trans ?_, hwrapped _ _ hwraps⟩
  have htext : "x\n" ++ Text.indentLines "    " "if ok \x7b\n\n    run()\n\x7d\n" =
      "x\n    if ok \x7b\n\n        run()\n    \x7d\n" := by
    decide +kernel
  exact congrArg (Writer.mk (.blanks 2) 2) htext

end GioForge.Code
