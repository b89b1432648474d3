import GioForge.Proofs.Code.Placement
import Mathlib.Data.List.DropRight

/-!
Free text as fragments. The lines of a text are trimmed at their ends and rid of empty lines
around them, and then lose what all of them are indented by, so that one of them is left
without indentation. Lines of this form are written at any level with the same margin before
all that are not empty, and reading them again takes exactly this margin away.
-/

namespace GioForge.Code.Fragment

def indentOf (line : List Char) : Nat :=
  (line.takeWhile isIndent).length

/-- The line with a margin before it; an empty line stays empty. -/
def withMargin (margin line : List Char) : List Char :=
  if line.isEmpty then [] else margin ++ line

/-- Lines that end in no white space, the first and the last of which are not empty. -/
structure IsTrimmed (lines : List (List Char)) : Prop where
  onLine : ∀ line ∈ lines, '\n' ∉ line
  ends : ∀ line ∈ lines, ∀ c ∈ line.getLast?, Text.isBlank c = false
  first : lines.head? ≠ some []
  last : lines.getLast? ≠ some []

/-- Trimmed lines of which one is not indented, if there are any. -/
structure IsBased (lines : List (List Char)) : Prop extends IsTrimmed lines where
  unindented : lines ≠ [] → ∃ line ∈ lines, line ≠ [] ∧ indentOf line = 0

/-- The lines of a text without white space at their ends and without empty lines around
them. -/
def trimmedLines (text : String) : List (List Char) :=
  dropOuterEmpty ((Text.lines text.toList).map Text.trimEnd)

def rebased (lines : List (List Char)) : List (List Char) :=
  lines.map (List.drop (sharedIndent lines))

def ofLines (lines : List (List Char)) : List Fragment :=
  lines.map fun line => if line.isEmpty then .blank else .line (String.ofList line)

theorem isBlank_of_isIndent {c : Char} (h : isIndent c = true) : Text.isBlank c = true := by
  simp only [isIndent, Bool.or_eq_true, beq_iff_eq] at h
  rcases h with rfl | rfl <;> rfl

/-- Where there is a line with a text, the least indentation of such lines is the shared one. -/
theorem min?_indents {lines : List (List Char)} (h : ∃ line ∈ lines, line ≠ []) :
    ((lines.filter fun line => !line.isEmpty).map indentOf).min? = some (sharedIndent lines) := by
  obtain ⟨line, hline, hne⟩ := h
  have hmem : indentOf line ∈ (lines.filter fun line => !line.isEmpty).map indentOf :=
    List.mem_map_of_mem (List.mem_filter.mpr ⟨hline, by simpa using hne⟩)
  obtain ⟨least, hleast⟩ := Option.isSome_iff_exists.mp (List.isSome_min?_of_mem hmem)
  have hshared : sharedIndent lines = least := congrArg (Option.getD · 0) hleast
  rw [hleast, hshared]

theorem sharedIndent_le {lines : List (List Char)} {line : List Char} (h : line ∈ lines)
    (hne : line ≠ []) : sharedIndent lines ≤ indentOf line := by
  apply (List.min?_eq_some_iff.mp (min?_indents ⟨line, h, hne⟩)).2
  exact List.mem_map_of_mem (List.mem_filter.mpr ⟨h, by simpa using hne⟩)

/-- One of the lines is indented by no more than all of them. -/
theorem exists_indentOf_eq {lines : List (List Char)} (h : ∃ line ∈ lines, line ≠ []) :
    ∃ line ∈ lines, line ≠ [] ∧ indentOf line = sharedIndent lines := by
  obtain ⟨line, hline, hindent⟩ :=
    List.mem_map.mp (List.min?_eq_some_iff.mp (min?_indents h)).1
  obtain ⟨hline, hshown⟩ := List.mem_filter.mp hline
  exact ⟨line, hline, by simpa using hshown, hindent⟩

/-- The shared indentation is the one that some line has and no line undercuts. -/
theorem sharedIndent_eq {lines : List (List Char)} {depth : Nat}
    (hsome : ∃ line ∈ lines, line ≠ [] ∧ indentOf line = depth)
    (hall : ∀ line ∈ lines, line ≠ [] → depth ≤ indentOf line) : sharedIndent lines = depth := by
  obtain ⟨line, hline, hne, hdepth⟩ := hsome
  obtain ⟨least, hleast, hshown, hshared⟩ := exists_indentOf_eq ⟨line, hline, hne⟩
  have hupper := sharedIndent_le hline hne
  have hlower := hall least hleast hshown
  omega

theorem indentOf_drop {line : List Char} {depth : Nat} (h : depth ≤ indentOf line) :
    indentOf (line.drop depth) = indentOf line - depth := by
  have hsplit : line.drop depth =
      (line.takeWhile isIndent).drop depth ++ line.dropWhile isIndent := by
    rw [← List.drop_append_of_le_length h, List.takeWhile_append_dropWhile]
  have hall : ∀ c ∈ (line.takeWhile isIndent).drop depth, isIndent c = true := fun c hc =>
    List.mem_takeWhile_imp (List.mem_of_mem_drop hc)
  have hrest : (line.dropWhile isIndent).takeWhile isIndent = [] :=
    List.takeWhile_eq_nil_iff.mpr (List.dropWhile_get_zero_not isIndent line)
  unfold indentOf
  rw [hsplit, List.takeWhile_append_of_pos hall, hrest, List.append_nil, List.length_drop]

/-- A line that ends in something is not all indentation. -/
theorem indentOf_lt {line : List Char} (hne : line ≠ [])
    (hend : ∀ c ∈ line.getLast?, Text.isBlank c = false) : indentOf line < line.length := by
  have hlast := List.getLast?_eq_some_getLast hne
  apply lt_of_le_of_ne (List.takeWhile_prefix isIndent).length_le
  intro hlength
  have hall := List.takeWhile_eq_self_iff.mp ((List.takeWhile_prefix isIndent).eq_of_length hlength)
  have hblank := isBlank_of_isIndent (hall _ (List.getLast_mem hne))
  rw [hend _ hlast] at hblank
  cases hblank

theorem indentOf_append {margin : List Char} (h : ∀ c ∈ margin, isIndent c = true)
    (line : List Char) : indentOf (margin ++ line) = margin.length + indentOf line := by
  unfold indentOf
  rw [List.takeWhile_append_of_pos h, List.length_append]

theorem mem_of_mem_trimEnd {cs : List Char} {c : Char} (h : c ∈ Text.trimEnd cs) : c ∈ cs :=
  (List.rdropWhile_prefix Text.isBlank cs).subset h

theorem isBlank_getLast?_trimEnd (cs : List Char) :
    ∀ c ∈ (Text.trimEnd cs).getLast?, Text.isBlank c = false := by
  intro c hc
  obtain ⟨hne, rfl⟩ := List.mem_getLast?_eq_getLast hc
  exact Bool.eq_false_iff.mpr (List.rdropWhile_last_not Text.isBlank cs hne)

theorem trimEnd_eq_self {cs : List Char} (h : ∀ c ∈ cs.getLast?, Text.isBlank c = false) :
    Text.trimEnd cs = cs := by
  apply List.rdropWhile_eq_self_iff.mpr
  intro hne
  exact Bool.eq_false_iff.mp (h _ (List.getLast?_eq_some_getLast hne))

theorem mem_of_mem_dropOuterEmpty {lines : List (List Char)} {line : List Char}
    (h : line ∈ dropOuterEmpty lines) : line ∈ lines :=
  (List.dropWhile_suffix List.isEmpty).subset ((List.rdropWhile_prefix List.isEmpty _).subset h)

theorem head?_dropOuterEmpty (lines : List (List Char)) :
    (dropOuterEmpty lines).head? ≠ some [] := by
  intro h
  obtain ⟨rest, hrest⟩ := List.head?_eq_some_iff.mp h
  obtain ⟨behind, hbehind⟩ : dropOuterEmpty lines <+: lines.dropWhile List.isEmpty :=
    List.rdropWhile_prefix List.isEmpty _
  have hfirst := List.head?_dropWhile_not List.isEmpty lines
  rw [← hbehind, hrest] at hfirst
  cases hfirst

theorem getLast?_dropOuterEmpty (lines : List (List Char)) :
    (dropOuterEmpty lines).getLast? ≠ some [] := by
  intro h
  obtain ⟨hne, hlast⟩ := List.mem_getLast?_eq_getLast h
  have hnot := List.rdropWhile_last_not List.isEmpty (lines.dropWhile List.isEmpty) hne
  exact hnot (hlast ▸ rfl)

theorem dropOuterEmpty_eq_self {lines : List (List Char)} (hfirst : lines.head? ≠ some [])
    (hlast : lines.getLast? ≠ some []) : dropOuterEmpty lines = lines := by
  have hdrop : lines.dropWhile List.isEmpty = lines := by
    cases lines with
    | nil => rfl
    | cons line rest =>
        apply List.dropWhile_cons_of_neg
        rw [List.isEmpty_iff]
        rintro rfl
        exact hfirst rfl
  have htake : lines.rdropWhile List.isEmpty = lines := by
    apply List.rdropWhile_eq_self_iff.mpr
    intro hne hempty
    apply hlast
    rw [List.getLast?_eq_some_getLast hne, List.isEmpty_iff.mp hempty]
  unfold dropOuterEmpty
  rw [hdrop]
  exact htake

/-- The lines of any text are trimmed lines. -/
theorem isTrimmed_trimmedLines (text : String) : IsTrimmed (trimmedLines text) where
  onLine := by
    intro line hline hfeed
    obtain ⟨original, horiginal, rfl⟩ := List.mem_map.mp (mem_of_mem_dropOuterEmpty hline)
    exact Text.line_feed_not_mem_of_mem_lines horiginal (mem_of_mem_trimEnd hfeed)
  ends := by
    intro line hline
    obtain ⟨original, _, rfl⟩ := List.mem_map.mp (mem_of_mem_dropOuterEmpty hline)
    exact isBlank_getLast?_trimEnd original
  first := head?_dropOuterEmpty _
  last := getLast?_dropOuterEmpty _

/-- Trimmed lines stay so under a change that leaves the end of each of them as it is. -/
theorem IsTrimmed.map {lines : List (List Char)} (h : IsTrimmed lines)
    {change : List Char → List Char} (hfeed : ∀ line ∈ lines, '\n' ∉ change line)
    (hlast : ∀ line ∈ lines, (change line).getLast? = line.getLast?) :
    IsTrimmed (lines.map change) := by
  have hempty : ∀ line ∈ lines, change line = [] → line = [] := by
    intro line hline hnil
    rw [← List.getLast?_eq_none_iff, ← hlast line hline, hnil]
    rfl
  constructor
  · exact List.forall_mem_map.mpr hfeed
  · intro changed hchanged
    obtain ⟨line, hline, rfl⟩ := List.mem_map.mp hchanged
    rw [hlast line hline]
    exact h.ends line hline
  · intro hfirst
    rw [List.head?_map, Option.map_eq_some_iff] at hfirst
    obtain ⟨line, hline, hnil⟩ := hfirst
    exact h.first (hline.trans (congrArg some (hempty line (List.mem_of_mem_head? hline) hnil)))
  · intro hend
    rw [List.getLast?_map, Option.map_eq_some_iff] at hend
    obtain ⟨line, hline, hnil⟩ := hend
    exact h.last (hline.trans (congrArg some (hempty line (List.mem_of_getLast? hline) hnil)))

theorem IsTrimmed.exists_shown {lines : List (List Char)} (h : IsTrimmed lines)
    (hne : lines ≠ []) : ∃ line ∈ lines, line ≠ [] := by
  cases lines with
  | nil => exact absurd rfl hne
  | cons line rest =>
      refine ⟨line, List.mem_cons_self, ?_⟩
      rintro rfl
      exact h.first rfl

/-- Of a trimmed line with a text something is left behind the shared indentation. -/
theorem IsTrimmed.sharedIndent_lt {lines : List (List Char)} (h : IsTrimmed lines)
    {line : List Char} (hline : line ∈ lines) (hne : line ≠ []) :
    sharedIndent lines < line.length :=
  (sharedIndent_le hline hne).trans_lt (indentOf_lt hne (h.ends line hline))

/-- Without the indentation that all of them share, one of the lines has none. -/
theorem IsTrimmed.isBased_rebased {lines : List (List Char)} (h : IsTrimmed lines) :
    IsBased (rebased lines) := by
  have htrimmed : IsTrimmed (rebased lines) := by
    apply h.map
    · intro line hline hfeed
      exact h.onLine line hline (List.mem_of_mem_drop hfeed)
    · intro line hline
      by_cases hne : line = []
      · simp [hne]
      · rw [List.getLast?_drop, if_neg (Nat.not_le.mpr (h.sharedIndent_lt hline hne))]
  refine ⟨htrimmed, ?_⟩
  intro hne
  have hlines : lines ≠ [] := by
    rintro rfl
    exact hne rfl
  obtain ⟨line, hline, hshown, hindent⟩ := exists_indentOf_eq (h.exists_shown hlines)
  refine ⟨_, List.mem_map_of_mem hline, ?_, ?_⟩
  · rw [Ne, List.drop_eq_nil_iff, Nat.not_le]
    exact h.sharedIndent_lt hline hshown
  · rw [indentOf_drop hindent.ge, hindent, Nat.sub_self]

/-- A text becomes its trimmed lines with the shared indentation taken off. -/
theorem ofText_eq (text : String) : ofText text = ofLines (rebased (trimmedLines text)) := by
  have hempty : ∀ line ∈ trimmedLines text,
      (line.drop (sharedIndent (trimmedLines text))).isEmpty = line.isEmpty := by
    intro line hline
    by_cases hne : line = []
    · simp [hne]
    · have hlt := (isTrimmed_trimmedLines text).sharedIndent_lt hline hne
      rw [Bool.eq_iff_iff, List.isEmpty_iff, List.isEmpty_iff, List.drop_eq_nil_iff]
      exact ⟨fun hle => absurd hle (Nat.not_le.mpr hlt), fun hnil => absurd hnil hne⟩
  unfold ofLines rebased
  rw [List.map_map]
  apply List.map_congr_left
  intro line hline
  rw [Function.comp_apply, hempty line hline]
  rfl

theorem linesOf_ofLines (level : Nat) (lines : List (List Char)) :
    linesOf level (ofLines lines) = lines.map fun line => ⟨level, String.ofList line⟩ := by
  induction lines with
  | nil => rfl
  | cons line rest ih =>
      have hline :
          (if line.isEmpty then Fragment.blank else .line (String.ofList line)).lines level =
            [⟨level, String.ofList line⟩] := by
        cases line <;> rfl
      unfold ofLines at ih ⊢
      rw [List.map_cons, linesOf, hline, ih]
      rfl

/-- Written at a level, a line gets the margin of the level, and an empty one none. -/
theorem inner_ofList (indent : Indent) (level : Nat) (line : List Char) :
    Line.inner indent ⟨level, String.ofList line⟩ =
      withMargin (String.join (List.replicate level indent.unit)).toList line := by
  unfold Line.inner withMargin
  cases line with
  | nil => rfl
  | cons c rest => simp

/-- Trimmed lines that all get the same margin are trimmed lines. -/
theorem IsTrimmed.withMargin {lines : List (List Char)} (h : IsTrimmed lines)
    {margin : List Char} (hmargin : ∀ c ∈ margin, isIndent c = true) :
    IsTrimmed (lines.map (withMargin margin)) := by
  apply h.map
  · intro line hline
    unfold Fragment.withMargin
    split
    · exact List.not_mem_nil
    · rw [List.mem_append, not_or]
      refine ⟨fun hfeed => ?_, h.onLine line hline⟩
      cases hmargin _ hfeed
  · intro line _
    unfold Fragment.withMargin
    cases line with
    | nil => rfl
    | cons c rest => exact List.getLast?_append_of_ne_nil _ (List.cons_ne_nil c rest)

/-- A margin before lines of which one is not indented is what all of them are indented by. -/
theorem IsBased.rebased_withMargin {lines : List (List Char)} (h : IsBased lines)
    {margin : List Char} (hmargin : ∀ c ∈ margin, isIndent c = true) :
    rebased (lines.map (Fragment.withMargin margin)) = lines := by
  have hindent : ∀ line : List Char, line ≠ [] →
      indentOf (Fragment.withMargin margin line) = margin.length + indentOf line := by
    intro line hne
    unfold Fragment.withMargin
    rw [if_neg (by simpa using hne), indentOf_append hmargin]
  have hnil : ∀ line : List Char, Fragment.withMargin margin line ≠ [] → line ≠ [] := by
    rintro _ hne rfl
    exact hne rfl
  by_cases hlines : lines = []
  · rw [hlines]
    rfl
  · obtain ⟨least, hleast, hshown, hzero⟩ := h.unindented hlines
    -- The line that is not indented is now indented by the margin, and no other by less.
    have hshared : sharedIndent (lines.map (Fragment.withMargin margin)) = margin.length := by
      apply sharedIndent_eq
      · refine ⟨_, List.mem_map_of_mem hleast, ?_, ?_⟩
        · simp [Fragment.withMargin, hshown]
        · rw [hindent least hshown, hzero, Nat.add_zero]
      · intro changed hchanged hne
        obtain ⟨line, _, rfl⟩ := List.mem_map.mp hchanged
        rw [hindent line (hnil line hne)]
        exact Nat.le_add_right _ _
    have hdrop : ∀ line ∈ lines,
        (List.drop margin.length ∘ Fragment.withMargin margin) line = line := by
      intro line _
      cases line with
      | nil => exact List.drop_nil
      | cons c rest => exact List.drop_left
    unfold rebased
    rw [hshared, List.map_map, List.map_congr_left hdrop]
    exact List.map_id' lines

/-- Lines that are trimmed already are found again in the text made of them. -/
theorem trimmedLines_of_isTrimmed {lines : List (List Char)} (h : IsTrimmed lines) :
    trimmedLines (String.ofList (lines.flatMap (· ++ ['\n']))) = lines := by
  have hreturn : ∀ line ∈ lines, line.getLast? ≠ some '\r' := by
    intro line hline hlast
    cases h.ends line hline _ hlast
  have htrim : lines.map Text.trimEnd = lines := by
    rw [List.map_congr_left fun line hline => trimEnd_eq_self (h.ends line hline)]
    exact List.map_id' lines
  unfold trimmedLines
  rw [String.toList_ofList, Text.lines_line_feeds h.onLine hreturn, htrim,
    dropOuterEmpty_eq_self h.first h.last]

/-- Lines of which one is not indented are read again as they are, wherever they were
written. -/
theorem ofText_emitAll {lines : List (List Char)} (h : IsBased lines) (indent : Indent)
    (level : Nat) :
    ofText (({ indent, level } : Writer).emitAll (ofLines lines)).text = ofLines lines := by
  have hmargin : ∀ c ∈ (String.join (List.replicate level indent.unit)).toList,
      isIndent c = true := by
    intro c hc
    rcases Indent.eq_of_mem_margin hc with rfl | rfl <;> rfl
  have hinner : (linesOf level (ofLines lines)).map (Line.inner indent) =
      lines.map (Fragment.withMargin (String.join (List.replicate level indent.unit)).toList) := by
    rw [linesOf_ofLines, List.map_map]
    exact List.map_congr_left fun line _ => inner_ofList indent level line
  rw [ofText_eq, Writer.text_emitAll, hinner,
    trimmedLines_of_isTrimmed (h.toIsTrimmed.withMargin hmargin), h.rebased_withMargin hmargin]

/-- Free text that was made into fragments, written with any indentation at any level and
read as free text again, gives the same fragments. They neither begin nor end with an empty
line, and each of the others is a line that is not empty, holds no line feed and does not end
in white space. -/
theorem free_text_is_rebased_once (text : String) (indent : Indent) (level : Nat) :
    ofText (({ indent, level } : Writer).emitAll (ofText text)).text = ofText text ∧
      (ofText text).head? ≠ some .blank ∧ (ofText text).getLast? ≠ some .blank ∧
      ∀ fragment ∈ ofText text, fragment = .blank ∨
        ∃ line, fragment = .line line ∧ line ≠ "" ∧ '\n' ∉ line.toList ∧
          ∀ c ∈ line.toList.getLast?, Text.isBlank c = false := by
  have hbased := (isTrimmed_trimmedLines text).isBased_rebased
  have hblank : ∀ line : List Char,
      (if line.isEmpty then Fragment.blank else .line (String.ofList line)) = .blank →
        line = [] := by
    intro line h
    cases line with
    | nil => rfl
    | cons c rest => cases h
  rw [ofText_eq text]
  refine ⟨ofText_emitAll hbased indent level, ?_, ?_, ?_⟩
  · intro hfirst
    rw [ofLines, List.head?_map, Option.map_eq_some_iff] at hfirst
    obtain ⟨line, hline, hempty⟩ := hfirst
    exact hbased.first (hline.trans (congrArg some (hblank line hempty)))
  · intro hlast
    rw [ofLines, List.getLast?_map, Option.map_eq_some_iff] at hlast
    obtain ⟨line, hline, hempty⟩ := hlast
    exact hbased.last (hline.trans (congrArg some (hblank line hempty)))
  · intro fragment hfragment
    obtain ⟨line, hline, rfl⟩ := List.mem_map.mp hfragment
    cases line with
    | nil => exact Or.inl rfl
    | cons c rest =>
        refine Or.inr ⟨_, rfl, ?_, ?_, ?_⟩
        · rw [Ne, ← String.toList_inj, String.toList_ofList]
          exact List.cons_ne_nil c rest
        · rw [String.toList_ofList]
          exact hbased.onLine _ hline
        · rw [String.toList_ofList]
          exact hbased.ends _ hline

end GioForge.Code.Fragment
