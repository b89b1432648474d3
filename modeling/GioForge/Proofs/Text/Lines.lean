import GioForge.Text.Blank
import GioForge.Text.Lines
import Mathlib.Tactic.Common

/-!
Texts that are made of lines. Lines that were each ended by a line feed are found again,
both by splitting the text at line feeds and by cutting it into lines, as long as no line
holds a line feed itself; a line that is cut must not end in a carriage return either,
since that would go with the line feed.
-/

namespace GioForge.Text

/-- The text with a margin before each of its lines that is not empty. -/
def indentLines (margin text : String) : String :=
  String.ofList (['\n'].intercalate ((text.toList.splitOn '\n').map fun line =>
    if line.isEmpty then [] else margin.toList ++ line))

/-- The last of some things whose text has a character other than white space. -/
def lastShownBy? {α : Type} (textOf : α → String) (xs : List α) : Option α :=
  (xs.filter fun x => !isBlankText (textOf x)).getLast?

/-- The last line of a text that has a character other than white space. -/
def lastShown? (text : String) : Option String :=
  lastShownBy? id ((text.toList.splitOn '\n').map String.ofList)

theorem not_isBlankText_of_lastShownBy? {α : Type} {textOf : α → String} {xs : List α} {x : α}
    (h : lastShownBy? textOf xs = some x) : isBlankText (textOf x) = false := by
  have hmem := List.mem_of_getLast? h
  simpa using (List.mem_filter.mp hmem).2

theorem lastShownBy?_map {α β : Type} (textOf : β → String) (make : α → β) (xs : List α) :
    lastShownBy? textOf (xs.map make) =
      (lastShownBy? (fun x => textOf (make x)) xs).map make := by
  unfold lastShownBy?
  rw [List.filter_map, List.getLast?_map]
  rfl

/-- Only which texts are blank decides which is the last. -/
theorem lastShownBy?_congr {α : Type} {textOf other : α → String}
    (h : ∀ x, isBlankText (textOf x) = isBlankText (other x)) (xs : List α) :
    lastShownBy? textOf xs = lastShownBy? other xs := by
  unfold lastShownBy?
  simp only [h]

theorem lastShownBy?_concat {α : Type} (textOf : α → String) (xs : List α) (x : α) :
    lastShownBy? textOf (xs ++ [x]) =
      if isBlankText (textOf x) then lastShownBy? textOf xs else some x := by
  unfold lastShownBy?
  rw [List.filter_append, List.getLast?_append]
  by_cases hblank : isBlankText (textOf x) = true <;> simp [hblank]

/-- Lines that were ended by line feeds are what a text is split into at line feeds, before
what the rest of the text is split into. -/
theorem splitOn_line_feeds_append {lines : List (List Char)} (h : ∀ line ∈ lines, '\n' ∉ line)
    (rest : List Char) :
    (lines.flatMap (· ++ ['\n']) ++ rest).splitOn '\n' = lines ++ rest.splitOn '\n' := by
  induction lines with
  | nil => rfl
  | cons line others ih =>
      have hline : ∀ c ∈ line, (c == '\n') = false := by
        intro c hc
        rw [beq_eq_false_iff_ne]
        rintro rfl
        exact h line (by simp) hc
      have hothers := ih fun other hother => h other (by simp [hother])
      rw [List.splitOn_eq_splitOnP] at hothers ⊢
      rw [List.flatMap_cons, List.append_assoc, List.append_assoc, List.singleton_append,
        List.splitOnP_append_cons_of_forall_mem hline '\n' rfl, hothers]
      rfl

theorem splitOn_line_feeds {lines : List (List Char)} (h : ∀ line ∈ lines, '\n' ∉ line) :
    (lines.flatMap (· ++ ['\n'])).splitOn '\n' = lines ++ [[]] := by
  have happend := splitOn_line_feeds_append h []
  rwa [List.append_nil, List.splitOn_nil] at happend

/-- A line that ends a text is the last that shows anything, whatever lines stand before it. -/
theorem lastShown?_append_line {before line : List Char}
    (hbefore : before = [] ∨ ∃ init, before = init ++ ['\n']) (hline : '\n' ∉ line)
    (hshown : isBlankText (String.ofList line) = false) :
    lastShown? (String.ofList (before ++ (line ++ ['\n']))) = some (String.ofList line) := by
  have hlast : (line ++ ['\n']).splitOn '\n' = [line, []] := by
    rw [List.splitOn_append_cons_self_of_not_mem hline, List.splitOn_nil]
  have hpieces : ∃ pieces, (before ++ (line ++ ['\n'])).splitOn '\n' = pieces ++ [line, []] := by
    rcases hbefore with rfl | ⟨init, rfl⟩
    · exact ⟨[], hlast⟩
    · refine ⟨init.splitOn '\n', ?_⟩
      rw [List.splitOn_eq_splitOnP] at hlast ⊢
      rw [List.append_assoc, List.singleton_append, List.splitOnP_append_cons init _ rfl, hlast]
      rfl
  obtain ⟨pieces, hpieces⟩ := hpieces
  have hlines : (pieces ++ [line, []]).map String.ofList =
      pieces.map String.ofList ++ [String.ofList line] ++ [""] := by
    simp
  have hempty : isBlankText "" = true := rfl
  unfold lastShown?
  rw [String.toList_ofList, hpieces, hlines, lastShownBy?_concat, id, if_pos hempty,
    lastShownBy?_concat, id, if_neg (Bool.eq_false_iff.mp hshown)]

theorem intercalate_line_feeds (lines : List (List Char)) :
    ['\n'].intercalate (lines ++ [[]]) = lines.flatMap (· ++ ['\n']) := by
  induction lines with
  | nil => rfl
  | cons line others ih =>
      rw [List.cons_append, List.intercalate_cons_of_ne_nil (by simp), ih, List.flatMap_cons,
        List.append_assoc]

/-- A margin before a text made of lines is a margin before each of the lines. -/
theorem indentLines_line_feeds {lines : List (List Char)} (h : ∀ line ∈ lines, '\n' ∉ line)
    (margin : String) :
    indentLines margin (String.ofList (lines.flatMap (· ++ ['\n']))) =
      String.ofList (lines.flatMap fun line =>
        (if line.isEmpty then [] else margin.toList ++ line) ++ ['\n']) := by
  unfold indentLines
  rw [String.toList_ofList, splitOn_line_feeds h, List.map_append, List.map_singleton,
    List.isEmpty_nil, if_pos rfl, intercalate_line_feeds, List.flatMap_map]

/-- A line that does not end in a carriage return is cut off at the line feed behind it. -/
theorem lines_append {line : List Char} (hfeed : '\n' ∉ line) (hreturn : line.getLast? ≠ some '\r')
    (rest : List Char) : lines (line ++ '\n' :: rest) = line :: lines rest := by
  induction line with
  | nil => rfl
  | cons c tail ih =>
      simp only [List.mem_cons, not_or] at hfeed
      have hc : c = '\n' → False := fun h => hfeed.1 h.symm
      have hpair : ∀ others, c = '\r' → tail ++ '\n' :: rest = '\n' :: others → False := by
        intro others hc hothers
        cases tail with
        | nil => exact hreturn (congrArg some hc)
        | cons d more => exact hfeed.2 (by simp [(List.cons.inj hothers).1])
      have htail : tail.getLast? ≠ some '\r' := by
        intro h
        exact hreturn (by rw [List.getLast?_cons, h, Option.getD_some])
      rw [List.cons_append, lines.eq_4 c _ hc hpair, ih hfeed.2 htail]

/-- Lines are found again unless one ends in what is taken for a part of the line end. -/
theorem lines_line_feeds {ls : List (List Char)} (hfeed : ∀ line ∈ ls, '\n' ∉ line)
    (hreturn : ∀ line ∈ ls, line.getLast? ≠ some '\r') :
    lines (ls.flatMap (· ++ ['\n'])) = ls := by
  induction ls with
  | nil => rfl
  | cons line others ih =>
      have hothers := ih (fun other hother => hfeed other (List.mem_cons_of_mem _ hother))
        (fun other hother => hreturn other (List.mem_cons_of_mem _ hother))
      rw [List.flatMap_cons, List.append_assoc, List.singleton_append,
        lines_append (hfeed line List.mem_cons_self) (hreturn line List.mem_cons_self), hothers]

theorem line_feed_not_mem_of_mem_lines {cs line : List Char} (h : line ∈ lines cs) :
    '\n' ∉ line := by
  fun_induction lines cs generalizing line with
  | case1 => cases h
  | case2 rest ih =>
      rcases List.mem_cons.mp h with rfl | hrest
      · exact List.not_mem_nil
      · exact ih hrest
  | case3 rest ih =>
      rcases List.mem_cons.mp h with rfl | hrest
      · exact List.not_mem_nil
      · exact ih hrest
  | case4 c rest hc hpair hlines ih =>
      rw [List.mem_singleton.mp h, List.mem_singleton]
      exact fun heq => hc heq.symm
  | case5 c rest hc hpair first others hlines ih =>
      rw [hlines] at ih
      rcases List.mem_cons.mp h with rfl | hothers
      · rw [List.mem_cons, not_or]
        exact ⟨fun heq => hc heq.symm, ih List.mem_cons_self⟩
      · exact ih (List.mem_cons_of_mem _ hothers)

end GioForge.Text
