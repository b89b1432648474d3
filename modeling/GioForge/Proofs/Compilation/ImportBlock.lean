import GioForge.Proofs.Compilation.PageImports
import GioForge.Proofs.Compilation.WellFormed

/-!
The import block as it stands in a file. Its lines are the paths of the packages, and they
can be read back from the text, since nothing that stands further down can be taken for the
start of the block.
-/

namespace GioForge

open Code

/-- The lines between the start of the import block of a file and its end. -/
def importedLines (source : String) : List String :=
  let lines := (source.toList.splitOn '\n').map String.ofList
  (lines.dropWhile (· ≠ "import (")).tail.takeWhile (· ≠ ")")

theorem Code.Line.ofList_chars_import (package : String) :
    String.ofList (Line.chars ⟨1, "\"" ++ package ++ "\""⟩) = "\t\"" ++ package ++ "\"" := by
  rw [← String.toList_inj]
  simp [Line.chars]

namespace Program

/-- Down to the end of the import block, a program has no line feed inside its lines unless a path
has one. -/
theorem line_feed_not_mem_importLines {program : Program}
    (h : ∀ package ∈ program.imports.paths, '\n' ∉ package.toList) :
    ∀ line ∈ headLines ++ program.importLines ++ [⟨0, ")"⟩], '\n' ∉ line.chars := by
  intro line hline
  rcases List.mem_append.mp hline with hline | hend
  · rcases List.mem_append.mp hline with hhead | himport
    · have hall : ∀ line ∈ headLines, '\n' ∉ line.chars := by decide +kernel
      exact hall line hhead
    · obtain ⟨entry, hentry, rfl⟩ := List.mem_map.mp himport
      have hpath := h entry.1 (List.mem_map_of_mem hentry)
      have hchars := congrArg String.toList (Line.ofList_chars_import entry.1)
      rw [String.toList_ofList] at hchars
      rw [hchars]
      simpa using hpath
  · rw [List.mem_singleton.mp hend]
    decide

/-- The source begins with its header, the package and one line for each imported package. -/
theorem splitOn_source {program : Program}
    (h : ∀ package ∈ program.imports.paths, '\n' ∉ package.toList) :
    ∃ below, (program.source.toList.splitOn '\n').map String.ofList =
      [generatedHeader, "", "package main", "", "import ("] ++
        (program.imports.paths.map fun package => "\t\"" ++ package ++ "\"") ++ ")" :: below := by
  have hhead : headLines.map (String.ofList ∘ Line.chars) =
      [generatedHeader, "", "package main", "", "import ("] := by
    decide +kernel
  have himports : program.importLines.map (String.ofList ∘ Line.chars) =
      program.imports.paths.map fun package => "\t\"" ++ package ++ "\"" := by
    unfold importLines Imports.paths
    rw [List.map_map, List.map_map]
    exact List.map_congr_left fun entry _ => Line.ofList_chars_import entry.1
  have hlines : program.lines = headLines ++ program.importLines ++ [⟨0, ")"⟩] ++
      (windowLines.tail ++ program.optionLines ++ themeLines ++ program.stateLines ++ frameLines ++
        program.flexLines ++ tailLines) := by
    simp [lines, windowLines]
  have hsplit := Text.splitOn_line_feeds_append
    (List.forall_mem_map.mpr (line_feed_not_mem_importLines h))
  rw [List.flatMap_map] at hsplit
  rw [toList_source, hlines, List.flatMap_append, hsplit, List.map_append, List.map_map,
    List.map_append, List.map_append, hhead, himports, List.append_assoc]
  exact ⟨_, rfl⟩

/-- The import block is read back from a file, whatever stands below it. -/
theorem importedLines_source {program : Program}
    (h : ∀ package ∈ program.imports.paths, '\n' ∉ package.toList) :
    importedLines program.source =
      program.imports.paths.map fun package => "\t\"" ++ package ++ "\"" := by
  have hbefore : ∀ line ∈ [generatedHeader, "", "package main", ""],
      decide (line ≠ "import (") = true := by
    decide +kernel
  have hinside : ∀ line ∈ program.imports.paths.map fun package => "\t\"" ++ package ++ "\"",
      decide (line ≠ ")") = true := by
    intro line hline
    obtain ⟨package, _, rfl⟩ := List.mem_map.mp hline
    rw [decide_eq_true_eq, Ne, ← String.toList_inj]
    simp
  obtain ⟨below, hbelow⟩ := splitOn_source h
  have hstart : [generatedHeader, "", "package main", "", "import ("] =
      [generatedHeader, "", "package main", ""] ++ ["import ("] := rfl
  unfold importedLines
  dsimp only
  rw [hbelow, hstart, List.append_assoc, List.append_assoc, List.dropWhile_append_of_pos hbefore,
    List.singleton_append, List.dropWhile_cons_of_neg (by decide), List.tail_cons,
    List.takeWhile_append_of_pos hinside, List.takeWhile_cons_of_neg (by decide), List.append_nil]

end Program

theorem Page.line_feed_not_mem_paths (page : Page) :
    ∀ package ∈ page.imports.paths, '\n' ∉ package.toList := by
  have hpackages : ∀ package ∈ packages, '\n' ∉ package.toList := by decide
  intro package hpackage
  exact hpackages package (mem_packages ((page.imports.mem_paths package).mp hpackage))

theorem importedLines_source (page : Page) :
    importedLines page.program.source =
      page.imports.sorted.map fun entry => "\t\"" ++ entry.1 ++ "\"" := by
  rw [Program.importedLines_source page.line_feed_not_mem_paths]
  exact List.map_map

end GioForge
