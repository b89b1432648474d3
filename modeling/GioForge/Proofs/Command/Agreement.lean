import GioForge.Command.Run
import GioForge.Proofs.Compilation.ImportBlock
import GioForge.Proofs.Output.Runs
import GioForge.Proofs.Resolution.Reports

/-!
Checking foretells baking. Checking, showing a program and writing it each resolve the
actions and compile on their own account. They fail for the same reasons, report the same
findings in the same order and count the same things, and the packages that checking names
are the ones that stand in the import block of the program.
-/

namespace GioForge

/-- Compiling fails just as composing does. -/
theorem compile_eq_error_iff {ui : Ui.Graph} {handlers : Handlers} {e : CompileError} :
    compile ui handlers = .error e ↔
      Compilation.compose Translators.builtin ui handlers = .error e := by
  unfold compile
  cases Compilation.compose Translators.builtin ui handlers <;> simp [Except.map]

/-- A run that succeeded reports what was noted while compiling. -/
theorem Generation.Step.diagnostics {base : Path} {call : Call} {tree after : FileTree}
    {result : Except Failure Generation} {g : Generation} (h : Step base call tree after result)
    (hok : result = .ok g) :
    ∃ c, Compilation.compose Translators.builtin call.ui call.handlers = .ok c ∧
      g.diagnostics = c.diagnostics := by
  cases h with
  | refused => cases hok
  | blocked => cases hok
  | renewed hcompose => exact ⟨_, hcompose, by rw [← Except.ok.inj hok]⟩
  | created hcompose => exact ⟨_, hcompose, by rw [← Except.ok.inj hok]⟩

theorem Compilation.phase_of_compose {translators : Translators} {ui : Ui.Graph}
    {handlers : Handlers} {c : Compilation} (h : compose translators ui handlers = .ok c) :
    ∀ d ∈ c.diagnostics, d.phase = phase := by
  obtain ⟨placed, _, h⟩ := ok_of_bind h
  obtain rfl := Except.ok.inj h
  intro d hd
  rcases List.mem_append.mp hd with hicon | haction
  · obtain ⟨icon, _, rfl⟩ := Option.map_eq_some_iff.mp (Option.mem_toList.mp hicon)
    rfl
  · obtain ⟨p, _, hp⟩ := List.mem_flatMap.mp haction
    unfold actionWarnings at hp
    split at hp
    · cases hp
    · dsimp only at hp
      split_ifs at hp
      · rw [List.mem_singleton.mp hp]
        rfl
      · rw [List.mem_singleton.mp hp]
        rfl
      · cases hp

namespace Command

section

variable (ui : Ui.Graph) (relation : Relation.Graph) (settings : GoSettings) (output : Path)
  (tree : FileTree) (uiPath : Path) (relationPath : Option Path)

theorem handlers_ofRelation :
    (Resolution.ofRelation Responders.builtin relation).handlers = resolveActions relation :=
  rfl

/-- A check composes the page and keeps what was reported. -/
theorem check_eq :
    check ui uiPath relation relationPath =
      (Compilation.compose Translators.builtin ui (resolveActions relation)).map fun c =>
        { uiPath, relationPath
          diagnostics :=
            (Resolution.ofRelation Responders.builtin relation).diagnostics ++ c.diagnostics
          elements := ui.elements.map fun e => e.kind?.getD ""
          actions := (resolveActions relation).keys
          imports := c.program.imports.sorted.map Prod.fst } := by
  unfold check
  simp only [handlers_ofRelation]
  cases Compilation.compose Translators.builtin ui (resolveActions relation) <;> rfl

/-- A dry run leaves the disk alone and composes the page. -/
theorem bake_dry_eq :
    bake ui relation settings output true tree =
      (tree, match Compilation.compose Translators.builtin ui (resolveActions relation) with
        | .error e => .error (.compile e)
        | .ok c => .ok
            { page := ui.page
              elementCount := ui.elements.length
              handlerCount := (resolveActions relation).size
              diagnostics :=
                (Resolution.ofRelation Responders.builtin relation).diagnostics ++ c.diagnostics
              result := .preview (Generation.files c settings) }) := by
  unfold bake Preview.of
  simp only [handlers_ofRelation, if_true]
  cases Compilation.compose Translators.builtin ui (resolveActions relation) <;> rfl

/-- A run that succeeded composed the page, and what it reports is what composing reported. -/
theorem bake_ok {report : BakeReport}
    (h : (bake ui relation settings output false tree).2 = .ok report) :
    ∃ c, Compilation.compose Translators.builtin ui (resolveActions relation) = .ok c ∧
      report.diagnostics =
        (Resolution.ofRelation Responders.builtin relation).diagnostics ++ c.diagnostics ∧
      report.elementCount = ui.elements.length ∧
      report.handlerCount = (resolveActions relation).size := by
  unfold bake at h
  simp only [handlers_ofRelation, Bool.false_eq_true, if_false] at h
  have hstep := Generation.step_run output ⟨ui, resolveActions relation, settings⟩ tree
  unfold Generation.Call.run at hstep
  generalize Generation.run ui (resolveActions relation) settings output tree = outcome at h hstep
  obtain ⟨after, _ | g⟩ := outcome
  · cases h
  · obtain ⟨c, hcompose, hdiagnostics⟩ := hstep.diagnostics rfl
    obtain rfl := Except.ok.inj h
    exact ⟨c, hcompose, by rw [hdiagnostics], rfl, rfl⟩

end

/-- Whether and why a program cannot be compiled is the same for all ways to ask. If it can
be compiled, checking reports what baking will report. -/
theorem checking_foretells_baking (ui : Ui.Graph) (relation : Relation.Graph)
    (settings : GoSettings) (output : Path) (tree : FileTree) (uiPath : Path)
    (relationPath : Option Path) :
    (∀ e, check ui uiPath relation relationPath = .error e ↔
      compile ui (resolveActions relation) = .error e) ∧
    (∀ failure, (bake ui relation settings output true tree).2 = .error failure ↔
      ∃ e, failure = .compile e ∧ compile ui (resolveActions relation) = .error e) ∧
    (bake ui relation settings output true tree).1 = tree ∧
    (∀ source, compile ui (resolveActions relation) = .ok source →
      ∃ c report preview files,
        Compilation.compose Translators.builtin ui (resolveActions relation) = .ok c ∧
        check ui uiPath relation relationPath = .ok report ∧
        (bake ui relation settings output true tree).2 = .ok preview ∧
        report.diagnostics =
          (Resolution.ofRelation Responders.builtin relation).diagnostics ++ c.diagnostics ∧
        (∀ d ∈ (Resolution.ofRelation Responders.builtin relation).diagnostics,
          d.phase = "roll") ∧
        (∀ d ∈ c.diagnostics, d.phase = "compose") ∧
        preview.diagnostics = report.diagnostics ∧
        preview.elementCount = report.elements.length ∧
        preview.handlerCount = report.actions.length ∧
        preview.result = .preview files ∧
        (files.filter fun file => file.name = "main.go").map OutputFile.content = [source] ∧
        importedLines source = report.imports.map fun package => "\t\"" ++ package ++ "\"") ∧
    ∀ result, (bake ui relation settings output false tree).2 = .ok result →
      ∃ report, check ui uiPath relation relationPath = .ok report ∧
        result.diagnostics = report.diagnostics ∧
        result.elementCount = report.elements.length ∧
        result.handlerCount = report.actions.length := by
  rw [check_eq, bake_dry_eq]
  refine ⟨?_, ?_, rfl, ?_, ?_⟩
  · intro e
    rw [compile_eq_error_iff]
    cases Compilation.compose Translators.builtin ui (resolveActions relation) <;> simp [Except.map]
  · intro failure
    simp only [compile_eq_error_iff]
    cases Compilation.compose Translators.builtin ui (resolveActions relation) with
    | error e => simp [eq_comm]
    | ok c => simp
  · intro source hsource
    obtain ⟨c, widgets, hcompose, _, hprogram, rfl⟩ := Compilation.page_of_compile hsource
    rw [hcompose]
    refine ⟨c, _, _, _, rfl, rfl, rfl, rfl, fun d hd => (Resolution.mem_diagnostics hd).2.1,
      Compilation.phase_of_compose hcompose, rfl, ?_, ?_, rfl, ?_, ?_⟩
    · simp
    · simp [Table.keys, Table.size]
    · rw [← hprogram]
      rfl
    · rw [importedLines_source, List.map_map, hprogram]
      rfl
  · intro result hresult
    obtain ⟨c, hcompose, hdiagnostics, helements, hactions⟩ :=
      bake_ok ui relation settings output tree hresult
    rw [hcompose]
    refine ⟨_, rfl, hdiagnostics, ?_, ?_⟩
    · simp [helements]
    · simp [hactions, Table.keys, Table.size]

/-- A window with an icon, a button without a handler and two scripts for another action. -/
theorem checking_foretells_baking_with_findings :
    ∃ source report preview,
      compile
        { window := some { icon := some "app.png" }
          elements := [(Ui.Element.ofKind "button").withValue "Stop" |>.withAction "stop"] }
        (resolveActions ⟨[.of "go" (.text "first"), .of "go" (.text "second")]⟩) = .ok source ∧
      check
        { window := some { icon := some "app.png" }
          elements := [(Ui.Element.ofKind "button").withValue "Stop" |>.withAction "stop"] }
        ⟨"ui.json"⟩ ⟨[.of "go" (.text "first"), .of "go" (.text "second")]⟩ none = .ok report ∧
      report.diagnostics.map Diagnostic.phase = ["roll", "compose", "compose"] ∧
      (bake
        { window := some { icon := some "app.png" }
          elements := [(Ui.Element.ofKind "button").withValue "Stop" |>.withAction "stop"] }
        ⟨[.of "go" (.text "first"), .of "go" (.text "second")]⟩ {} ⟨"out"⟩ true {}).2 =
          .ok preview ∧
      preview.diagnostics = report.diagnostics ∧
      importedLines source = report.imports.map fun package => "\t\"" ++ package ++ "\"" := by
  obtain ⟨c, report, preview, files, _, hreport, hpreview, _, _, _, hsame, _, _, _, _, himports⟩ :=
    (checking_foretells_baking
      { window := some { icon := some "app.png" }
        elements := [(Ui.Element.ofKind "button").withValue "Stop" |>.withAction "stop"] }
      ⟨[.of "go" (.text "first"), .of "go" (.text "second")]⟩ {} ⟨"out"⟩ {} ⟨"ui.json"⟩
      none).2.2.2.1 _ rfl
  refine ⟨_, report, preview, rfl, hreport, ?_, hpreview, hsame, himports⟩
  rw [← Except.ok.inj hreport]
  rfl

end Command

end GioForge
