import GioForge.Proofs.Code.Rebasing
import Mathlib.Data.List.Forall2

/-!
What free text loses before its lines. The indentation of a line is counted, and every line
that is not empty loses as many characters as the least indented one has. The characters
themselves are not compared. So what the lines share of their indentation is taken off all of
them, and nothing else, exactly if the indentation of one of them begins each of them, as
it does wherever only tabs or only spaces are used.
-/

namespace GioForge.Code.Fragment

/-- What becomes of a line when a margin is taken off. -/
inductive Loses (margin : List Char) : List Char → Fragment → Prop where
  /-- An empty line has no margin. -/
  | empty : Loses margin [] .blank
  /-- Every other line begins with the margin, and the rest of it is kept. -/
  | shown {line : List Char} {rest : String} (hne : line ≠ [])
      (hline : line = margin ++ rest.toList) : Loses margin line (.line rest)

/-- A run of indenting characters that begins every line that is not empty. -/
structure IsMargin (margin : List Char) (lines : List (List Char)) : Prop where
  indents : ∀ c ∈ margin, isIndent c = true
  begins : ∀ line ∈ lines, line ≠ [] → margin <+: line

/-- All that the lines share of their indentation. -/
structure IsSharedMargin (margin : List Char) (lines : List (List Char)) : Prop
    extends IsMargin margin lines where
  /-- Where there is no line to begin, any run will do. -/
  longest : (∃ line ∈ lines, line ≠ []) →
    ∀ other, IsMargin other lines → other.length ≤ margin.length

/-- The lines of the text lose what they share of their indentation, and nothing else. -/
def StripsSharedMargin (text : String) : Prop :=
  ∃ margin, IsSharedMargin margin (trimmedLines text) ∧
    List.Forall₂ (Loses margin) (trimmedLines text) (ofText text)

theorem length_le_indentOf {margin line : List Char} (h : ∀ c ∈ margin, isIndent c = true)
    (hbegins : margin <+: line) : margin.length ≤ indentOf line := by
  obtain ⟨rest, rfl⟩ := hbegins
  rw [indentOf_append h]
  exact Nat.le_add_right _ _

theorem take_indentOf (line : List Char) :
    line.take (indentOf line) = line.takeWhile isIndent :=
  (List.prefix_iff_eq_take.mp (List.takeWhile_prefix isIndent)).symm

/-- A line without its first characters has lost these. -/
theorem loses_drop_iff {margin line : List Char} {depth : Nat} :
    Loses margin line (if line.isEmpty then .blank else .line (String.ofList (line.drop depth))) ↔
      (line ≠ [] → line.take depth = margin) := by
  by_cases hne : line = []
  · subst hne
    exact iff_of_true .empty fun h => absurd rfl h
  · rw [if_neg (by simpa using hne)]
    constructor
    · rintro (_ | ⟨_, hline⟩) _
      rw [String.toList_ofList] at hline
      exact List.append_cancel_right ((List.take_append_drop depth line).trans hline)
    · intro h
      refine .shown hne ?_
      rw [String.toList_ofList, ← h hne, List.take_append_drop]

/-- What holds of every line of a text and the fragment made from it. -/
theorem forall₂_ofText_iff (R : List Char → Fragment → Prop) (text : String) :
    List.Forall₂ R (trimmedLines text) (ofText text) ↔
      ∀ line ∈ trimmedLines text, R line (if line.isEmpty then .blank
        else .line (String.ofList (line.drop (sharedIndent (trimmedLines text))))) := by
  have htext : ofText text = (trimmedLines text).map fun line => if line.isEmpty then .blank
      else .line (String.ofList (line.drop (sharedIndent (trimmedLines text)))) := rfl
  rw [htext, List.forall₂_map_right_iff, List.forall₂_same]

/-- The characters that are taken off are the same for all lines exactly if these lines begin
with the same characters up to the least indentation. -/
theorem forall₂_loses_iff {margin : List Char} {text : String} :
    List.Forall₂ (Loses margin) (trimmedLines text) (ofText text) ↔
      ∀ line ∈ trimmedLines text, line ≠ [] →
        line.take (sharedIndent (trimmedLines text)) = margin := by
  simp only [forall₂_ofText_iff, loses_drop_iff]

section Least

variable {lines : List (List Char)} {least : List Char} (hleast : least ∈ lines)
  (hne : least ≠ []) (hbegins : ∀ line ∈ lines, line ≠ [] → least.takeWhile isIndent <+: line)

include hleast hne hbegins

/-- If every line begins with the margin of the least indented one, that margin is the shared
one. -/
theorem isSharedMargin_of_least : IsSharedMargin (least.takeWhile isIndent) lines where
  indents := fun _ hc => List.mem_takeWhile_imp hc
  begins := hbegins
  longest := fun _ _ hother => length_le_indentOf hother.indents (hother.begins least hleast hne)

/-- The least indentation is that of the line that begins all others. -/
theorem sharedIndent_of_least : sharedIndent lines = indentOf least := by
  apply sharedIndent_eq ⟨least, hleast, hne, rfl⟩
  intro line hline hshown
  exact length_le_indentOf (fun _ hc => List.mem_takeWhile_imp hc) (hbegins line hline hshown)

end Least

/-- The shared margin is what goes exactly if every line begins with the margin of the least
indented one. -/
theorem stripsSharedMargin_iff (text : String) :
    StripsSharedMargin text ↔ (trimmedLines text ≠ [] →
      ∃ least ∈ trimmedLines text, least ≠ [] ∧
        ∀ line ∈ trimmedLines text, line ≠ [] → least.takeWhile isIndent <+: line) := by
  constructor
  · rintro ⟨margin, hmargin, hloses⟩ hlines
    rw [forall₂_loses_iff] at hloses
    obtain ⟨least, hleast, hne, hindent⟩ :=
      exists_indentOf_eq ((isTrimmed_trimmedLines text).exists_shown hlines)
    refine ⟨least, hleast, hne, ?_⟩
    rw [← take_indentOf, hindent, hloses least hleast hne]
    exact hmargin.begins
  · intro h
    by_cases hlines : trimmedLines text = []
    · refine ⟨[], ⟨⟨by simp, by simp⟩, ?_⟩, ?_⟩
      · rintro ⟨line, hline, _⟩
        rw [hlines] at hline
        cases hline
      · rw [forall₂_loses_iff, hlines]
        simp
    · obtain ⟨least, hleast, hne, hbegins⟩ := h hlines
      refine ⟨_, isSharedMargin_of_least hleast hne hbegins, ?_⟩
      rw [forall₂_loses_iff, sharedIndent_of_least hleast hne hbegins]
      intro line hline hshown
      exact (List.prefix_iff_eq_take.mp (hbegins line hline hshown)).symm

theorem begins_of_uniform {lines : List (List Char)} {c : Char}
    (h : ∀ line ∈ lines, ∀ d ∈ line.takeWhile isIndent, d = c) {least line : List Char}
    (hleast : least ∈ lines) (hline : line ∈ lines) (hle : indentOf least ≤ indentOf line) :
    least.takeWhile isIndent <+: line := by
  refine List.IsPrefix.trans ?_ (List.takeWhile_prefix isIndent)
  rw [List.eq_replicate_of_mem (h least hleast), List.eq_replicate_of_mem (h line hline),
    List.prefix_replicate_iff, List.length_replicate]
  exact ⟨hle, rfl⟩

/-- Every line of a text loses as many characters as the least indented one is indented by, and
these are indentation of its own. They are what all lines share of their indentation, and
nothing else, exactly if the indentation of one line begins all of them, and so wherever
only one character indents them. -/
theorem shared_margin_is_stripped_unless_indents_differ (text : String) :
    (∃ depth, (∀ line ∈ trimmedLines text, line ≠ [] → depth ≤ indentOf line) ∧
      (trimmedLines text ≠ [] → ∃ line ∈ trimmedLines text, line ≠ [] ∧ indentOf line = depth) ∧
      List.Forall₂ (fun line => Loses (line.take depth) line) (trimmedLines text)
        (ofText text)) ∧
    (StripsSharedMargin text ↔ (trimmedLines text ≠ [] →
      ∃ least ∈ trimmedLines text, least ≠ [] ∧
        ∀ line ∈ trimmedLines text, line ≠ [] → least.takeWhile isIndent <+: line)) ∧
    ∀ c, (∀ line ∈ trimmedLines text, ∀ d ∈ line.takeWhile isIndent, d = c) →
      StripsSharedMargin text := by
  have hleast : trimmedLines text ≠ [] → ∃ line ∈ trimmedLines text, line ≠ [] ∧
      indentOf line = sharedIndent (trimmedLines text) := fun hlines =>
    exists_indentOf_eq ((isTrimmed_trimmedLines text).exists_shown hlines)
  refine ⟨⟨_, fun _ hline hne => sharedIndent_le hline hne, hleast, ?_⟩,
    stripsSharedMargin_iff text, ?_⟩
  · rw [forall₂_ofText_iff]
    intro line _
    exact loses_drop_iff.mpr fun _ => rfl
  · intro c hc
    rw [stripsSharedMargin_iff]
    intro hlines
    obtain ⟨least, hmem, hne, hindent⟩ := hleast hlines
    refine ⟨least, hmem, hne, fun line hline hshown => ?_⟩
    exact begins_of_uniform hc hmem hline (hindent.trans_le (sharedIndent_le hline hshown))

/-- Tabs and spaces before every line, and the first line begins the others. -/
theorem shared_margin_is_stripped_unless_indents_differ_nested :
    let text := "\n\t case é:\r\n\t \tb()\n\n\t end  \n"
    (∀ line ∈ trimmedLines text, line ≠ [] →
      "\t case é:".toList.takeWhile isIndent <+: line) ∧
    StripsSharedMargin text ∧
    ofText text = [.line "case é:", .line "\tb()", .blank, .line "end"] := by
  intro text
  have hbegins : ∀ line ∈ trimmedLines text, line ≠ [] →
      "\t case é:".toList.takeWhile isIndent <+: line := by
    decide +kernel
  have hstrips := (shared_margin_is_stripped_unless_indents_differ text).2.1
  refine ⟨hbegins, hstrips.mpr fun _ => ?_, ?_⟩
  · exact ⟨"\t case é:".toList, by decide +kernel, by decide +kernel, hbegins⟩
  · subst text
    rfl

/-- A space and a tab before two lines are not shared and are taken off. -/
theorem different_indents_are_stripped :
    ofText " a\n\tb" = [.line "a", .line "b"] ∧ ¬ StripsSharedMargin " a\n\tb" := by
  have hlines : trimmedLines " a\n\tb" = [[' ', 'a'], ['\t', 'b']] := rfl
  refine ⟨rfl, ?_⟩
  rintro ⟨margin, _, hloses⟩
  rw [forall₂_loses_iff, hlines] at hloses
  have hspace : [' '] = margin := hloses [' ', 'a'] (by simp) (by simp)
  have htab : ['\t'] = margin := hloses ['\t', 'b'] (by simp) (by simp)
  cases hspace.trans htab.symm

end GioForge.Code.Fragment
