import GioForge.Code.Writer
import GioForge.Proofs.Go.Scanner

/-!
Fragments as lines. A fragment is a list of lines, each with its level, and writing
a fragment adds these lines to the text: what it adds depends neither on what was
written before nor on the nesting the lines came from. A rendered file can therefore
be scanned line by line, since a line feed ends every token that may end.
-/

namespace GioForge.Code

/-- A line of code and how deep it stands. -/
structure Line where
  level : Nat
  text : String

/-- The line as it is written; an empty one has no indentation. -/
def Line.render (indent : Indent) (line : Line) : String :=
  if line.text.isEmpty then "\n"
  else String.join (List.replicate line.level indent.unit) ++ line.text ++ "\n"

namespace Fragment

mutual

def lines (level : Nat) : Fragment → List Line
  | .line text => [⟨level, text⟩]
  | .blank => [⟨level, ""⟩]
  | .block header body close =>
      ⟨level, header⟩ :: linesOf (level + 1) body ++ close.toList.map fun text => ⟨level, text⟩
  | .indented body => linesOf (level + 1) body
  | .sequence body => linesOf level body

def linesOf (level : Nat) : List Fragment → List Line
  | [] => []
  | fragment :: rest => fragment.lines level ++ linesOf level rest

end

theorem linesOf_append (level : Nat) (first second : List Fragment) :
    linesOf level (first ++ second) = linesOf level first ++ linesOf level second := by
  induction first with
  | nil => rfl
  | cons fragment rest ih => simp [linesOf, ih]

theorem linesOf_map {α : Type} (level : Nat) (fragment : α → Fragment) (xs : List α) :
    linesOf level (xs.map fragment) = xs.flatMap fun x => (fragment x).lines level := by
  induction xs with
  | nil => rfl
  | cons x rest ih => simp [linesOf, ih]

theorem linesOf_map_line {α : Type} (level : Nat) (text : α → String) (xs : List α) :
    linesOf level (xs.map fun x => .line (text x)) = xs.map fun x => ⟨level, text x⟩ := by
  induction xs with
  | nil => rfl
  | cons x rest ih => simp [linesOf, lines, ih]

end Fragment

namespace Writer

def write (w : Writer) (lines : List Line) : Writer :=
  { w with text := w.text ++ String.join (lines.map (Line.render w.indent)) }

theorem write_nil (w : Writer) : w.write [] = w := by
  simp [write]

theorem write_append (w : Writer) (first second : List Line) :
    w.write (first ++ second) = (w.write first).write second := by
  simp [write, String.append_assoc]

theorem line_eq_write (w : Writer) (text : String) : w.line text = w.write [⟨w.level, text⟩] := by
  unfold line
  split
  · next hempty => simp [write, Line.render, hempty, blank]
  · next hempty => simp [write, Line.render, hempty, margin, String.append_assoc]

mutual

/-- Writing a fragment adds its lines. -/
theorem emit_eq_write (w : Writer) (fragment : Fragment) :
    w.emit fragment = w.write (fragment.lines w.level) := by
  cases fragment with
  | line text => exact line_eq_write w text
  | blank => simp [emit, blank, write, Fragment.lines, Line.render]
  | block header body close =>
      have hbody : ((w.line header).deeper.emitAll body).shallower =
          w.write (⟨w.level, header⟩ :: Fragment.linesOf (w.level + 1) body) := by
        rw [emitAll_eq_write, line_eq_write]
        exact (write_append w [⟨w.level, header⟩] (Fragment.linesOf (w.level + 1) body)).symm
      cases close with
      | none => simpa [emit, Fragment.lines] using hbody
      | some text =>
          rw [emit, hbody, line_eq_write, Fragment.lines, write_append]
          rfl
  | indented body =>
      rw [emit, emitAll_eq_write]
      rfl
  | sequence body =>
      rw [emit, emitAll_eq_write]
      rfl

/-- Emitting fragments writes the lines they are laid out in, from the level that was reached. -/
theorem emitAll_eq_write (w : Writer) (fragments : List Fragment) :
    w.emitAll fragments = w.write (Fragment.linesOf w.level fragments) := by
  cases fragments with
  | nil => exact (write_nil w).symm
  | cons fragment rest =>
      rw [emitAll, emitAll_eq_write, emit_eq_write, Fragment.linesOf, write_append]
      rfl

end

end Writer

/-- A rendered file is its lines, indented with tabs. -/
theorem render_eq_join (fragments : List Fragment) :
    render fragments =
      String.join ((Fragment.linesOf 0 fragments).map (Line.render .tab)) := by
  rw [render, Writer.emitAll_eq_write]
  simp [Writer.write]

open Go

/-- The tokens of a line in a file that is indented with tabs. A line that cannot be
scanned has none. -/
def Line.tokens (line : Line) : List Token :=
  (if line.text.isEmpty then [] else List.replicate line.level (.blank '\t')) ++
    (lex line.text).getD [] ++ [.blank '\n']

theorem transduce_tabs (n : Nat) :
    transduce State.step .between (List.replicate n '\t') =
      some (List.replicate n (.blank '\t'), .between) := by
  induction n with
  | zero => rfl
  | succ n ih =>
      have htab : State.between.step '\t' = some ([.blank '\t'], .between) := rfl
      exact transduce_cons htab ih

/-- A written line leaves no token open. -/
theorem transduce_render (line : Line) (h : (lex line.text).isSome = true) :
    transduce State.step .between (line.render .tab).toList = some (line.tokens, .between) := by
  obtain ⟨tokens, hlex⟩ := Option.isSome_iff_exists.mp h
  have htext : transduce State.step .between (line.text.toList ++ ['\n']) =
      some (tokens ++ [.blank '\n'], .between) := by
    simp only [lex, Option.bind_eq_bind, Option.bind_eq_some_iff] at hlex
    obtain ⟨⟨read, last⟩, hread, done, hflush, heq⟩ := hlex
    obtain rfl : read ++ done = tokens := by simpa using heq
    rw [List.append_assoc]
    exact transduce_append hread (transduce_singleton (State.step_line_feed hflush))
  by_cases hempty : line.text.isEmpty = true
  · have hchars : (line.render .tab).toList = line.text.toList ++ ['\n'] := by
      simp [Line.render, String.isEmpty_iff.mp hempty]
    have htokens : line.tokens = tokens ++ [.blank '\n'] := by
      simp [Line.tokens, hempty, hlex]
    rw [hchars, htokens]
    exact htext
  · have hchars : (line.render .tab).toList =
        List.replicate line.level '\t' ++ (line.text.toList ++ ['\n']) := by
      have hmargin : (List.replicate line.level Indent.tab.unit).flatMap String.toList =
          List.replicate line.level '\t' := by
        induction line.level with
        | zero => rfl
        | succ n ih =>
            rw [List.replicate_succ, List.flatMap_cons, ih]
            rfl
      simp [Line.render, hempty, hmargin]
    have htokens : line.tokens =
        List.replicate line.level (.blank '\t') ++ (tokens ++ [.blank '\n']) := by
      simp [Line.tokens, hempty, hlex]
    rw [hchars, htokens]
    exact transduce_append (transduce_tabs line.level) htext

/-- Lines whose texts can each be read are read one by one when they stand in a file. -/
theorem transduce_lines (lines : List Line)
    (h : ∀ line ∈ lines, (lex line.text).isSome = true) :
    transduce State.step .between (lines.flatMap fun line => (line.render .tab).toList) =
      some (lines.flatMap Line.tokens, .between) := by
  induction lines with
  | nil => rfl
  | cons line rest ih =>
      have hline := transduce_render line (h line (by simp))
      have hrest := ih fun other hother => h other (by simp [hother])
      exact transduce_append hline hrest

/-- A rendered file is scanned line by line, if each of its lines can be scanned. -/
theorem lex_render (fragments : List Fragment)
    (h : ∀ line ∈ Fragment.linesOf 0 fragments, (lex line.text).isSome = true) :
    lex (render fragments) = some ((Fragment.linesOf 0 fragments).flatMap Line.tokens) := by
  have hchars : (render fragments).toList =
      (Fragment.linesOf 0 fragments).flatMap fun line => (line.render .tab).toList := by
    rw [render_eq_join, String.toList_join, List.flatMap_map]
  simp [lex, hchars, transduce_lines _ h, State.flush]

end GioForge.Code
