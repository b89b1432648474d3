import GioForge.Proofs.Command.Agreement

/-!
What showing a program says about writing it. A dry run looks at no disk. It shows the
source and the manifest, and with them the texts that writing would put into the two
files; but writing keeps a manifest that is there. So a dry run foretells all files that
are written, in order and with their texts, and it lists the manifest once too often
exactly if there is something in its place already.
-/

namespace GioForge

open Generation

/-- A file that holds a text can be read by any path that leads to it. -/
theorem FileTree.readText?_of_locate {tree : FileTree} {path : Path} {place : Location}
    {text : String} (hlocate : tree.locate path = .ok place)
    (hcontent : tree.contentAt place = some (.text text)) : tree.readText? path = some text := by
  have hentry : tree.get? place = some (.file (.text text)) := by
    unfold contentAt at hcontent
    split at hcontent
    · next content hget => rw [hget, Option.some.inj hcontent]
    · cases hcontent
  have hfind : tree.find path = .ok (.file (.text text)) := by
    unfold find
    rw [hlocate]
    simp only [bind, Except.bind, hentry]
    rfl
  unfold readText?
  rw [hfind]

/-- After a run that wrote the files with some names, the files of the program with these
names can be read at their paths. -/
theorem Generation.Step.readText?_written {base : Path} {call : Call} {tree after : FileTree}
    {g : Generation} {c : Compilation} (h : Step base call tree after (.ok g))
    (hcompose : Compilation.compose Translators.builtin call.ui call.handlers = .ok c) :
    ∀ file ∈ files c call.settings, file.name ∈ g.written →
      after.readText? (file.path base) = some file.content := by
  obtain ⟨hsource, hmanifest⟩ := (h.canEnter rfl).locate
  have hplace := h.workingDirectory
  rw [sourcePlace_eq hplace] at hsource
  rw [manifestPlace_eq hplace] at hmanifest
  obtain ⟨source, hcompile, hcontent⟩ := h.contentAt_of_success rfl
  obtain rfl : c.source = source := Except.ok.inj ((compile_eq_ok hcompose).symm.trans hcompile)
  intro file hfile hwritten
  simp only [files, List.mem_cons, List.not_mem_nil, or_false] at hfile
  rcases hfile with rfl | rfl
  · exact FileTree.readText?_of_locate hsource hcontent
  · have hreport := h.report rfl
    split_ifs at hreport with hmissing
    · refine FileTree.readText?_of_locate hmanifest ?_
      have hentry := h.manifest_written hmissing.1 hmissing.2
      unfold FileTree.contentAt
      rw [hentry]
      rfl
    · have hname : (OutputFile.manifest call.settings).name = "go.mod" := rfl
      rw [(Prod.mk.inj hreport).1, hname] at hwritten
      exact absurd hwritten (by decide)

namespace Command

/-- The files a run wrote are those of one step of the generator. -/
theorem bake_written {ui : Ui.Graph} {relation : Relation.Graph} {settings : GoSettings}
    {output : Path} {tree : FileTree} {report : BakeReport}
    (h : (bake ui relation settings output false tree).2 = .ok report) :
    ∃ g, Step output ⟨ui, resolveActions relation, settings⟩ tree
        (bake ui relation settings output false tree).1 (.ok g) ∧
      report.result = .written output g.written g.skipped := by
  have hstep := step_run output ⟨ui, resolveActions relation, settings⟩ tree
  unfold Call.run at hstep
  unfold bake at h ⊢
  simp only [handlers_ofRelation, Bool.false_eq_true, if_false] at h ⊢
  generalize Generation.run ui (resolveActions relation) settings output tree = outcome at *
  obtain ⟨after, _ | g⟩ := outcome
  · cases h
  · obtain rfl := Except.ok.inj h
    exact ⟨g, hstep, rfl⟩

/-- What a dry run shows, if writing would succeed. The names it lists are those of the
files that are written followed by those that are kept, and every file that is written has
the text that was shown. Nothing is kept, so that the list is exact, if and only if there
is nothing in the place of the manifest and the way to the directory does not lead through
that place. -/
theorem dry_run_shows_every_written_file (ui : Ui.Graph) (relation : Relation.Graph)
    (settings : GoSettings) (output : Path) (tree : FileTree) {report : BakeReport}
    (h : (bake ui relation settings output false tree).2 = .ok report) :
    ∃ preview files written kept,
      bake ui relation settings output true tree = (tree, .ok preview) ∧
      preview.result = .preview files ∧
      report.result = .written output written kept ∧
      files.map OutputFile.name = written ++ kept ∧
      (∀ file ∈ files, file.name ∈ written →
        (bake ui relation settings output false tree).1.readText? (file.path output) =
          some file.content) ∧
      (files.map OutputFile.name = written ↔
        tree.get? (manifestPlace output tree) = none ∧
          manifestPlace output tree ∉ tree.route output) := by
  obtain ⟨g, hstep, hresult⟩ := bake_written h
  obtain ⟨c, hcompose, _⟩ := bake_ok ui relation settings output tree h
  have hnames : (files c settings).map OutputFile.name = ["main.go", "go.mod"] := rfl
  have hreport := hstep.report rfl
  rw [bake_dry_eq, hcompose]
  refine ⟨_, files c settings, g.written, g.skipped, rfl, rfl, hresult, ?_,
    hstep.readText?_written hcompose, ?_⟩
  · rw [hnames]
    split_ifs at hreport with hmissing
    · rw [(Prod.mk.inj hreport).1, (Prod.mk.inj hreport).2]
      rfl
    · rw [(Prod.mk.inj hreport).1, (Prod.mk.inj hreport).2]
      rfl
  · rw [hnames]
    split_ifs at hreport with hmissing
    · exact iff_of_true (Prod.mk.inj hreport).1.symm hmissing
    · rw [(Prod.mk.inj hreport).1]
      exact iff_of_false (by decide) hmissing

/-- Writing into a directory that is not there yet. -/
theorem dry_run_shows_every_written_file_of_new_directory :
    ∃ report preview files,
      (bake {} {} {} ⟨"build"⟩ false {}).2 = .ok report ∧
      report.result = .written ⟨"build"⟩ ["main.go", "go.mod"] [] ∧
      bake {} {} {} ⟨"build"⟩ true {} = ({}, .ok preview) ∧
      preview.result = .preview files ∧
      files.map OutputFile.name = ["main.go", "go.mod"] ∧
      ∀ file ∈ files, (bake {} {} {} ⟨"build"⟩ false {}).1.readText? (file.path ⟨"build"⟩) =
        some file.content := by
  have hbake : (bake {} {} {} ⟨"build"⟩ false {}).2.map BakeReport.result =
      .ok (.written ⟨"build"⟩ ["main.go", "go.mod"] []) := by decide +kernel
  obtain ⟨report, hreport, hwritten⟩ : ∃ report,
      (bake {} {} {} ⟨"build"⟩ false {}).2 = .ok report ∧
      report.result = .written ⟨"build"⟩ ["main.go", "go.mod"] [] := by
    generalize (bake {} {} {} ⟨"build"⟩ false {}).2 = outcome at hbake ⊢
    cases outcome with
    | error failure => cases hbake
    | ok report => exact ⟨report, rfl, Except.ok.inj hbake⟩
  obtain ⟨preview, files, written, kept, hdry, hfiles, hresult, hnames, htexts, _⟩ :=
    dry_run_shows_every_written_file {} {} {} ⟨"build"⟩ {} hreport
  obtain ⟨_, rfl, rfl⟩ := BakeResult.written.inj (hwritten.symm.trans hresult)
  rw [List.append_nil] at hnames
  refine ⟨report, preview, files, hreport, hwritten, hdry, hfiles, hnames, ?_⟩
  intro file hfile
  refine htexts file hfile ?_
  rw [← hnames]
  exact List.mem_map_of_mem hfile

/-- In a directory with a manifest, a dry run lists the manifest although writing keeps the
one that is there. -/
theorem dry_run_lists_a_kept_manifest :
    ∃ report preview files,
      (bake {} {} {} ⟨"build"⟩ false
        (({} : FileTree).plant ["build", "go.mod"] (.file (.text "module mine\n")))).2 =
          .ok report ∧
      report.result = .written ⟨"build"⟩ ["main.go"] ["go.mod"] ∧
      (bake {} {} {} ⟨"build"⟩ true
        (({} : FileTree).plant ["build", "go.mod"] (.file (.text "module mine\n")))).2 =
          .ok preview ∧
      preview.result = .preview files ∧
      files.map OutputFile.name = ["main.go", "go.mod"] :=
  ⟨_, _, _, rfl, by decide +kernel, rfl, rfl, rfl⟩

end Command

end GioForge
