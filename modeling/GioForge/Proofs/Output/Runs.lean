import GioForge.Output
import GioForge.Proofs.FileTree.Obstacles

/-!
Runs of the generator into one directory. A run that compiles makes the directories on
the way, writes the source, and writes the manifest if there is nothing in its place. What
one run can do to a disk is said once, by `Step`; what a sequence of runs does follows by
taking them one after the other.

A manifest counts as missing at the moment it would be written, after the directories
were made. A path such as `go.mod/..` goes through the place of the manifest, so a
directory is made there and no manifest is written.
-/

namespace GioForge

open GioForge.Path

namespace FileTree

def contentAt (tree : FileTree) (l : Location) : Option Content :=
  match tree.get? l with
  | some (.file content) => some content
  | _ => none

theorem Extends.contentAt {tree larger : FileTree} {places : List Location}
    (h : tree.Extends larger places) (l : Location) : larger.contentAt l = tree.contentAt l := by
  unfold FileTree.contentAt
  rcases h.entry l with hsame | ⟨hnone, hdirectory, _⟩
  · rw [hsame]
  · rw [hnone, hdirectory]

theorem contentAt_set {tree : FileTree} {place : Location} (h : place ≠ []) (content : Content)
    (l : Location) :
    (tree.set place (.file content)).contentAt l =
      if l = place then some content else tree.contentAt l := by
  unfold contentAt
  rw [get?_set _ _ _ _ h]
  split_ifs <;> rfl

end FileTree

namespace Generation

/-- What a run is given besides the output directory and the disk. -/
structure Call where
  ui : Ui.Graph
  handlers : Handlers
  settings : GoSettings

/-- A run as it was seen: the disk before and after it, and what came of it. -/
structure Event where
  call : Call
  before : FileTree
  after : FileTree
  result : Except Failure Generation

def Call.run (call : Call) (base : Path) (tree : FileTree) :
    FileTree × Except Failure Generation :=
  Generation.run call.ui call.handlers call.settings base tree

def history (base : Path) : FileTree → List Call → List Event
  | _, [] => []
  | tree, call :: rest =>
      let outcome := call.run base tree
      ⟨call, tree, outcome.1, outcome.2⟩ :: history base outcome.1 rest

def finalDisk (base : Path) (tree : FileTree) (calls : List Call) : FileTree :=
  calls.foldl (fun tree call => (call.run base tree).1) tree

def successes (base : Path) (tree : FileTree) (calls : List Call) : List Call :=
  ((history base tree calls).filter fun event => event.result.toBool).map Event.call

def sourcePlace (base : Path) (tree : FileTree) : Location :=
  tree.destination base ++ ["main.go"]

def manifestPlace (base : Path) (tree : FileTree) : Location :=
  tree.destination base ++ ["go.mod"]

/-- The way to the directory is open, and the path of the source can be used. -/
structure CanEnter (base : Path) (tree : FileTree) : Prop where
  isUsable : (base.join ⟨"main.go"⟩).isUsable = true
  isOpen : tree.IsOpen (tree.origin base) base.steps

/-- Nothing is in the way of the source: not on the way to the directory, and not in its
place, where making the directories must not put one either. -/
structure CanWrite (base : Path) (tree : FileTree) : Prop where
  isUsable : (base.join ⟨"main.go"⟩).isUsable = true
  isClear : tree.IsClear base
  noDirectory : tree.get? (sourcePlace base tree) ≠ some .directory
  notOnRoute : sourcePlace base tree ∉ tree.route base

/-- What one run can do. -/
inductive Step (base : Path) (call : Call) (tree : FileTree) :
    FileTree → Except Failure Generation → Prop where
  /-- It does not compile. -/
  | refused {e : CompileError} (h : compile call.ui call.handlers = .error e) :
      Step base call tree tree (.error (.compile e))
  /-- The source cannot be written. -/
  | blocked {source : String} {made : FileTree} (h : compile call.ui call.handlers = .ok source)
      (hmade : tree.Extends made (tree.route base))
      (hstore : tree.store (base.join ⟨"main.go"⟩) source = (made, false)) :
      Step base call tree made (.error .output)
  /-- The source is written, and there is something in the place of the manifest. -/
  | renewed {c : Compilation} {made : FileTree} {entry : Entry}
      (h : Compilation.compose Translators.builtin call.ui call.handlers = .ok c)
      (hmade : tree.Extends made (tree.route base))
      (henter : CanEnter base made) (hvacant : made.IsVacant (sourcePlace base made))
      (hmanifest : made.get? (manifestPlace base made) = some entry)
      (hstore : (tree.store (base.join ⟨"main.go"⟩) c.source).2 = true) :
      Step base call tree (made.set (sourcePlace base made) (.file (.text c.source)))
        (.ok { written := ["main.go"], skipped := ["go.mod"], diagnostics := c.diagnostics })
  /-- The source and the manifest are written. -/
  | created {c : Compilation} {made : FileTree}
      (h : Compilation.compose Translators.builtin call.ui call.handlers = .ok c)
      (hmade : tree.Extends made (tree.route base))
      (henter : CanEnter base made) (hvacant : made.IsVacant (sourcePlace base made))
      (hmanifest : made.get? (manifestPlace base made) = none)
      (hstore : (tree.store (base.join ⟨"main.go"⟩) c.source).2 = true) :
      Step base call tree
        ((made.set (sourcePlace base made) (.file (.text c.source))).set (manifestPlace base made)
          (.file (.text (Manifest.render call.settings))))
        (.ok { written := ["main.go", "go.mod"], diagnostics := c.diagnostics })

theorem isPlain_source : IsPlain "main.go" := by
  unfold IsPlain
  decide +kernel

theorem isPlain_manifest : IsPlain "go.mod" := by
  unfold IsPlain
  decide +kernel

theorem write_source (base : Path) (tree : FileTree) (text : String) :
    (OutputFile.source text).write base tree =
      ((tree.store (base.join ⟨"main.go"⟩) text).1,
        if (tree.store (base.join ⟨"main.go"⟩) text).2 then some .written else none) := by
  unfold OutputFile.write OutputFile.path
  simp only [OutputFile.source, reduceCtorEq, decide_false, Bool.false_and]
  generalize tree.store (base.join ⟨"main.go"⟩) text = stored
  obtain ⟨after, done⟩ := stored
  cases done <;> rfl

theorem write_manifest (base : Path) (tree : FileTree) (settings : GoSettings) :
    (OutputFile.manifest settings).write base tree =
      if tree.exists? (base.join ⟨"go.mod"⟩) then (tree, some .skipped)
      else
        ((tree.store (base.join ⟨"go.mod"⟩) (Manifest.render settings)).1,
          if (tree.store (base.join ⟨"go.mod"⟩) (Manifest.render settings)).2 then some .written
          else none) := by
  unfold OutputFile.write OutputFile.path
  simp only [OutputFile.manifest, decide_true, Bool.true_and]
  generalize tree.store (base.join ⟨"go.mod"⟩) (Manifest.render settings) = stored
  obtain ⟨after, done⟩ := stored
  cases done <;> rfl

/-- One file is written and noted, and then the rest, unless it could not be written. -/
theorem writeAll_cons (base : Path) (done : Generation) (tree : FileTree) (file : OutputFile)
    (rest : List OutputFile) :
    writeAll base done tree (file :: rest) =
      match (file.write base tree).2 with
      | some .written =>
          writeAll base { done with written := done.written ++ [file.name] }
            (file.write base tree).1 rest
      | some .skipped =>
          writeAll base { done with skipped := done.skipped ++ [file.name] }
            (file.write base tree).1 rest
      | none => ((file.write base tree).1, .error .output) := by
  rw [writeAll]
  generalize file.write base tree = outcome
  obtain ⟨after, _ | _ | _⟩ := outcome <;> rfl

theorem sourcePlace_ne_nil (base : Path) (tree : FileTree) : sourcePlace base tree ≠ [] := by
  simp [sourcePlace]

theorem manifestPlace_ne_nil (base : Path) (tree : FileTree) : manifestPlace base tree ≠ [] := by
  simp [manifestPlace]

theorem manifestPlace_ne_sourcePlace (base : Path) (tree : FileTree) :
    manifestPlace base tree ≠ sourcePlace base tree := by
  simp [sourcePlace, manifestPlace]

theorem get?_manifestPlace_set (base : Path) (tree : FileTree) (entry : Entry) :
    (tree.set (sourcePlace base tree) entry).get? (manifestPlace base tree) =
      tree.get? (manifestPlace base tree) :=
  (FileTree.get?_set _ _ _ _ (sourcePlace_ne_nil base tree)).trans
    (if_neg (manifestPlace_ne_sourcePlace base tree))

theorem CanEnter.set {base : Path} {tree : FileTree} (h : CanEnter base tree) {place : Location}
    (hplace : tree.IsVacant place) (entry : Entry) : CanEnter base (tree.set place entry) :=
  ⟨h.isUsable, h.isOpen.set hplace entry⟩

theorem CanEnter.isVacant_source {base : Path} {tree : FileTree} (h : CanEnter base tree)
    (hother : tree.get? (sourcePlace base tree) ≠ some .directory) :
    tree.IsVacant (sourcePlace base tree) :=
  ⟨sourcePlace_ne_nil base tree, hother, by
    rw [sourcePlace, List.dropLast_concat]
    exact h.isOpen.finish⟩

/-- After the source was written the manifest can be written too, if there is none. -/
theorem CanEnter.isVacant_manifest {base : Path} {tree : FileTree} (h : CanEnter base tree)
    (hvacant : tree.IsVacant (sourcePlace base tree))
    (hmissing : tree.get? (manifestPlace base tree) = none) (entry : Entry) :
    (tree.set (sourcePlace base tree) entry).IsVacant (manifestPlace base tree) := by
  refine ⟨manifestPlace_ne_nil base tree, ?_, ?_⟩
  · rw [get?_manifestPlace_set, hmissing]
    simp
  · rw [manifestPlace, List.dropLast_concat]
    exact (h.set hvacant entry).isOpen.finish

theorem CanEnter.locate {base : Path} {tree : FileTree} (h : CanEnter base tree) :
    tree.locate (base.join ⟨"main.go"⟩) = .ok (sourcePlace base tree) ∧
      tree.locate (base.join ⟨"go.mod"⟩) = .ok (manifestPlace base tree) := by
  have hmanifest := FileTree.isUsable_join isPlain_source isPlain_manifest (by decide +kernel)
    (by decide +kernel) h.isUsable
  exact ⟨FileTree.locate_join isPlain_source (by decide +kernel) h.isUsable h.isOpen,
    FileTree.locate_join isPlain_manifest (by decide +kernel) hmanifest h.isOpen⟩

/-- Behind the source, writing the manifest cannot fail: its directory is there, and if
there is something in its place it is left alone. -/
theorem write_manifest_of_open {base : Path} {tree : FileTree} (henter : CanEnter base tree)
    (settings : GoSettings) :
    (OutputFile.manifest settings).write base tree =
      match tree.get? (manifestPlace base tree) with
      | some _ => (tree, some .skipped)
      | none =>
          (tree.set (manifestPlace base tree) (.file (.text (Manifest.render settings))),
            some .written) := by
  have hname : isUsableName "go.mod" = true := by decide +kernel
  have hmanifest := FileTree.isUsable_join isPlain_source isPlain_manifest (by decide +kernel)
    (by decide +kernel) henter.isUsable
  rw [write_manifest, FileTree.exists?_join isPlain_manifest hname hmanifest henter.isOpen]
  unfold manifestPlace
  cases hentry : tree.get? (tree.destination base ++ ["go.mod"]) with
  | some entry => rfl
  | none =>
      have hstore := FileTree.store_join_of_open isPlain_manifest hname hmanifest henter.isOpen
        (by rw [hentry]; simp) (Manifest.render settings)
      simp [hstore]

theorem compile_eq_ok {ui : Ui.Graph} {handlers : Handlers} {c : Compilation}
    (h : Compilation.compose Translators.builtin ui handlers = .ok c) :
    compile ui handlers = .ok c.source := by
  unfold compile
  rw [h]
  rfl

theorem step_run (base : Path) (call : Call) (tree : FileTree) :
    Step base call tree (call.run base tree).1 (call.run base tree).2 := by
  unfold Call.run Generation.run
  cases hcompose : Compilation.compose Translators.builtin call.ui call.handlers with
  | error e =>
      refine .refused ?_
      unfold compile
      rw [hcompose]
      rfl
  | ok c =>
      have hname : isUsableName "main.go" = true := by decide +kernel
      obtain ⟨made, hmade, hfails | ⟨husable, hopen, hother, hstored⟩⟩ :=
        FileTree.store_join isPlain_source hname tree base c.source
      · have hwrite : (OutputFile.source c.source).write base tree = (made, none) := by
          rw [write_source, hfails]
          rfl
        dsimp only
        rw [files, writeAll_cons, hwrite]
        exact .blocked (compile_eq_ok hcompose) hmade hfails
      · have hwrite : (OutputFile.source c.source).write base tree =
            (made.set (sourcePlace base made) (.file (.text c.source)), some .written) := by
          rw [write_source, hstored]
          rfl
        have hstore : (tree.store (base.join ⟨"main.go"⟩) c.source).2 = true := by rw [hstored]
        have henter : CanEnter base made := ⟨husable, hopen⟩
        have hvacant := henter.isVacant_source hother
        -- The directory is there by now, so only what is in its place decides on the manifest.
        have hmanifest := write_manifest_of_open
          (henter.set hvacant (.file (.text c.source))) call.settings
        have hplace : (made.set (sourcePlace base made) (.file (.text c.source))).get?
            (manifestPlace base (made.set (sourcePlace base made) (.file (.text c.source)))) =
              made.get? (manifestPlace base made) :=
          get?_manifestPlace_set base made _
        rw [hplace] at hmanifest
        dsimp only
        rw [files, writeAll_cons, hwrite]
        cases hentry : made.get? (manifestPlace base made) with
        | some entry =>
            rw [hentry] at hmanifest
            dsimp only
            rw [writeAll_cons, hmanifest]
            exact .renewed hcompose hmade henter hvacant hentry hstore
        | none =>
            rw [hentry] at hmanifest
            dsimp only
            rw [writeAll_cons, hmanifest]
            exact .created hcompose hmade henter hvacant hentry hstore

section Places

variable {base : Path} {tree other : FileTree}

theorem sourcePlace_eq (h : other.workingDirectory = tree.workingDirectory) (base : Path) :
    sourcePlace base other = sourcePlace base tree := by
  unfold sourcePlace
  rw [FileTree.destination_eq h]

theorem manifestPlace_eq (h : other.workingDirectory = tree.workingDirectory) (base : Path) :
    manifestPlace base other = manifestPlace base tree := by
  unfold manifestPlace
  rw [FileTree.destination_eq h]

theorem CanEnter.of_extends {places : List Location} (h : tree.Extends other places)
    (henter : CanEnter base tree) : CanEnter base other := by
  refine ⟨henter.isUsable, ?_⟩
  rw [h.origin]
  exact henter.isOpen.mono fun l => h.get?_of_some

/-- After the directories are made the manifest is missing if it was missing before and
the way to the directory does not lead through its place. -/
theorem manifest_missing_iff {made : FileTree} (hmade : tree.Extends made (tree.route base))
    (henter : CanEnter base made) :
    made.get? (manifestPlace base made) = none ↔
      tree.get? (manifestPlace base tree) = none ∧ manifestPlace base tree ∉ tree.route base := by
  rw [manifestPlace_eq hmade.workingDirectory]
  constructor
  · intro hnone
    constructor
    · cases hentry : tree.get? (manifestPlace base tree) with
      | none => rfl
      | some entry =>
          rw [hmade.get?_of_some hentry] at hnone
          cases hnone
    · intro hroute
      rw [← hmade.route base] at hroute
      rw [FileTree.get?_of_mem_route henter.isOpen hroute] at hnone
      cases hnone
  · rintro ⟨hnone, hroute⟩
    rcases hmade.entry (manifestPlace base tree) with hsame | ⟨_, _, hmem⟩
    · rw [hsame, hnone]
    · exact absurd hmem hroute

end Places

namespace Step

variable {base : Path} {call : Call} {tree after : FileTree} {result : Except Failure Generation}

theorem workingDirectory (h : Step base call tree after result) :
    after.workingDirectory = tree.workingDirectory := by
  cases h with
  | refused => rfl
  | blocked _ hmade => exact hmade.workingDirectory
  | renewed _ hmade => exact hmade.workingDirectory
  | created _ hmade => exact hmade.workingDirectory

/-- After a step that succeeded the program is the compiled one. -/
theorem contentAt_of_success (h : Step base call tree after result) (hok : result.toBool = true) :
    ∃ source, compile call.ui call.handlers = .ok source ∧
      after.contentAt (sourcePlace base tree) = some (.text source) := by
  cases h with
  | refused => cases hok
  | blocked => cases hok
  | @renewed c made _ hcompose hmade =>
      refine ⟨c.source, compile_eq_ok hcompose, ?_⟩
      rw [sourcePlace_eq hmade.workingDirectory, FileTree.contentAt_set (sourcePlace_ne_nil _ _),
        if_pos rfl]
  | @created c made hcompose hmade =>
      refine ⟨c.source, compile_eq_ok hcompose, ?_⟩
      rw [sourcePlace_eq hmade.workingDirectory, manifestPlace_eq hmade.workingDirectory,
        FileTree.contentAt_set (manifestPlace_ne_nil _ _),
        if_neg (manifestPlace_ne_sourcePlace base tree).symm,
        FileTree.contentAt_set (sourcePlace_ne_nil _ _), if_pos rfl]

theorem contentAt_other (h : Step base call tree after result) {l : Location}
    (hsource : l ≠ sourcePlace base tree) (hmanifest : l ≠ manifestPlace base tree) :
    after.contentAt l = tree.contentAt l := by
  cases h with
  | refused => rfl
  | blocked _ hmade => exact hmade.contentAt l
  | renewed _ hmade =>
      rw [sourcePlace_eq hmade.workingDirectory, FileTree.contentAt_set (sourcePlace_ne_nil _ _),
        if_neg hsource, hmade.contentAt]
  | created _ hmade =>
      rw [sourcePlace_eq hmade.workingDirectory, manifestPlace_eq hmade.workingDirectory,
        FileTree.contentAt_set (manifestPlace_ne_nil _ _), if_neg hmanifest,
        FileTree.contentAt_set (sourcePlace_ne_nil _ _), if_neg hsource, hmade.contentAt]

/-- A document that is not compiled is refused before anything is touched. -/
theorem refuses (h : Step base call tree after result) {e : CompileError}
    (hfails : compile call.ui call.handlers = .error e) :
    result = .error (.compile e) ∧ after = tree := by
  cases h with
  | refused h =>
      rw [hfails] at h
      cases h
      exact ⟨rfl, rfl⟩
  | blocked h =>
      rw [hfails] at h
      cases h
  | renewed h =>
      rw [compile_eq_ok h] at hfails
      cases hfails
  | created h =>
      rw [compile_eq_ok h] at hfails
      cases hfails

theorem manifest_kept (h : Step base call tree after result) {entry : Entry}
    (hentry : tree.get? (manifestPlace base tree) = some entry) :
    after.get? (manifestPlace base tree) = some entry := by
  cases h with
  | refused => exact hentry
  | blocked _ hmade => exact hmade.get?_of_some hentry
  | renewed _ hmade =>
      rw [← manifestPlace_eq hmade.workingDirectory] at hentry ⊢
      rw [get?_manifestPlace_set]
      exact hmade.get?_of_some hentry
  | created _ hmade henter _ hmissing =>
      rw [((manifest_missing_iff hmade henter).mp hmissing).1] at hentry
      cases hentry

/-- A missing manifest is written by a step that succeeds, if its place is not on the way to the
output. -/
theorem manifest_written (h : Step base call tree after result)
    (hmissing : tree.get? (manifestPlace base tree) = none)
    (hroute : manifestPlace base tree ∉ tree.route base) :
    after.get? (manifestPlace base tree) =
      if result.toBool then some (.file (.text (Manifest.render call.settings))) else none := by
  cases h with
  | refused => exact hmissing
  | blocked _ hmade =>
      rcases hmade.entry (manifestPlace base tree) with hsame | ⟨_, _, hmem⟩
      · exact hsame.trans hmissing
      · exact absurd hmem hroute
  | renewed _ hmade henter _ hthere =>
      rw [(manifest_missing_iff hmade henter).mpr ⟨hmissing, hroute⟩] at hthere
      cases hthere
  | created _ hmade =>
      rw [manifestPlace_eq hmade.workingDirectory,
        FileTree.get?_set _ _ _ _ (manifestPlace_ne_nil base tree), if_pos rfl]
      rfl

/-- If its place is on the way to the output a directory is made there instead. -/
theorem directory_on_route (h : Step base call tree after result) (hok : result.toBool = true)
    (hroute : manifestPlace base tree ∈ tree.route base) :
    after.get? (manifestPlace base tree) = some .directory := by
  cases h with
  | refused => cases hok
  | blocked => cases hok
  | renewed _ hmade henter =>
      rw [← hmade.route base, ← manifestPlace_eq hmade.workingDirectory] at hroute
      rw [← manifestPlace_eq hmade.workingDirectory, get?_manifestPlace_set]
      exact FileTree.get?_of_mem_route henter.isOpen hroute
  | created _ hmade henter _ hmissing =>
      exact absurd hroute ((manifest_missing_iff hmade henter).mp hmissing).2

/-- What a step reports is what it did. -/
theorem report (h : Step base call tree after result) {g : Generation} (hok : result = .ok g) :
    (g.written, g.skipped) =
      if tree.get? (manifestPlace base tree) = none ∧ manifestPlace base tree ∉ tree.route base then
        (["main.go", "go.mod"], [])
      else (["main.go"], ["go.mod"]) := by
  cases h with
  | refused => cases hok
  | blocked => cases hok
  | renewed _ hmade henter _ hthere =>
      obtain rfl := Except.ok.inj hok
      rw [if_neg]
      rw [← manifest_missing_iff hmade henter, hthere]
      simp
  | created _ hmade henter _ hmissing =>
      obtain rfl := Except.ok.inj hok
      rw [if_pos ((manifest_missing_iff hmade henter).mp hmissing)]

theorem canEnter (h : Step base call tree after result) (hok : result.toBool = true) :
    CanEnter base after := by
  cases h with
  | refused => cases hok
  | blocked => cases hok
  | renewed _ _ henter hvacant => exact henter.set hvacant _
  | created _ _ henter hvacant hmissing =>
      exact (henter.set hvacant _).set (henter.isVacant_manifest hvacant hmissing _) _

/-- A step that fails adds at most directories on the way to the output. -/
theorem extends_of_failure (h : Step base call tree after result) (hfails : result.toBool = false) :
    tree.Extends after (tree.route base) := by
  cases h with
  | refused => exact .refl tree _
  | blocked _ hmade => exact hmade
  | renewed => cases hfails
  | created => cases hfails

/-- A run that compiles succeeds exactly if nothing is in the way. -/
theorem succeeds_iff (h : Step base call tree after result) {text : String}
    (hcompile : compile call.ui call.handlers = .ok text) (hclosed : tree.ParentClosed)
    (horigin : tree.get? (tree.origin base) = some .directory) :
    result.toBool = true ↔ CanWrite base tree := by
  have hstored : ∀ source, (tree.store (base.join ⟨"main.go"⟩) source).2 = true ↔
      CanWrite base tree := by
    intro source
    rw [FileTree.store_join_ok_iff isPlain_source (by decide +kernel) hclosed horigin]
    exact ⟨fun ⟨husable, hclear, hplace, hroute⟩ => ⟨husable, hclear, hplace, hroute⟩,
      fun ⟨husable, hclear, hplace, hroute⟩ => ⟨husable, hclear, hplace, hroute⟩⟩
  cases h with
  | refused hfails =>
      rw [hcompile] at hfails
      cases hfails
  | @blocked source _ _ _ hstore =>
      rw [← hstored source, hstore]
      exact Iff.rfl
  | @renewed c _ _ _ _ _ _ _ hstore => exact iff_of_true rfl ((hstored c.source).mp hstore)
  | @created c _ _ _ _ _ _ hstore => exact iff_of_true rfl ((hstored c.source).mp hstore)

theorem parentClosed (h : Step base call tree after result) (hclosed : tree.ParentClosed) :
    after.ParentClosed := by
  cases h with
  | refused => exact hclosed
  | blocked _ hmade => exact hmade.parentClosed hclosed
  | renewed _ hmade _ hvacant => exact (hmade.parentClosed hclosed).set hvacant _
  | created _ hmade henter hvacant hmissing =>
      exact ((hmade.parentClosed hclosed).set hvacant _).set
        (henter.isVacant_manifest hvacant hmissing _) _

theorem directory_kept (h : Step base call tree after result) {l : Location}
    (hl : tree.get? l = some .directory) : after.get? l = some .directory := by
  cases h with
  | refused => exact hl
  | blocked _ hmade => exact hmade.get?_of_some hl
  | renewed _ hmade _ hvacant => exact hvacant.directory_kept _ (hmade.get?_of_some hl)
  | created _ hmade henter hvacant hmissing =>
      exact (henter.isVacant_manifest hvacant hmissing _).directory_kept _
        (hvacant.directory_kept _ (hmade.get?_of_some hl))

end Step

/-- What a disk keeps through all runs: the place where relative paths start, directories,
and that everything lies in one. -/
structure Keeps (tree later : FileTree) : Prop where
  workingDirectory : later.workingDirectory = tree.workingDirectory
  directory : ∀ l, tree.get? l = some .directory → later.get? l = some .directory
  parentClosed : tree.ParentClosed → later.ParentClosed

theorem Step.keeps {base : Path} {call : Call} {tree after : FileTree}
    {result : Except Failure Generation} (h : Step base call tree after result) :
    Keeps tree after :=
  ⟨h.workingDirectory, fun _ => h.directory_kept, h.parentClosed⟩

theorem Keeps.refl (tree : FileTree) : Keeps tree tree :=
  ⟨rfl, fun _ => id, id⟩

theorem Keeps.trans {tree later last : FileTree} (first : Keeps tree later)
    (second : Keeps later last) : Keeps tree last :=
  ⟨second.workingDirectory.trans first.workingDirectory,
    fun l => second.directory l ∘ first.directory l, second.parentClosed ∘ first.parentClosed⟩

/-- Every event of a run is a step from what the events before it left, by induction on the
calls. -/
theorem mem_history {base : Path} {tree : FileTree} {calls : List Call} {event : Event}
    (h : event ∈ history base tree calls) :
    Keeps tree event.before ∧ Step base event.call event.before event.after event.result := by
  induction calls generalizing tree with
  | nil => cases h
  | cons call rest ih =>
      have hstep := step_run base call tree
      rcases List.mem_cons.mp h with rfl | hrest
      · exact ⟨.refl tree, hstep⟩
      · obtain ⟨hkeeps, hevent⟩ := ih hrest
        exact ⟨hstep.keeps.trans hkeeps, hevent⟩

theorem successes_cons (base : Path) (tree : FileTree) (call : Call) (rest : List Call) :
    successes base tree (call :: rest) =
      (if (call.run base tree).2.toBool then [call] else []) ++
        successes base (call.run base tree).1 rest := by
  unfold successes
  rw [history, List.filter_cons]
  split_ifs <;> rfl

section Sequence

variable (base : Path) (tree : FileTree) (calls : List Call)

theorem keeps_finalDisk : Keeps tree (finalDisk base tree calls) := by
  induction calls generalizing tree with
  | nil => exact .refl tree
  | cons call rest ih => exact (step_run base call tree).keeps.trans (ih (call.run base tree).1)

theorem contentAt_finalDisk_other {l : Location} (hsource : l ≠ sourcePlace base tree)
    (hmanifest : l ≠ manifestPlace base tree) :
    (finalDisk base tree calls).contentAt l = tree.contentAt l := by
  induction calls generalizing tree with
  | nil => rfl
  | cons call rest ih =>
      have hstep := step_run base call tree
      have hrest := ih (call.run base tree).1
        (by rw [sourcePlace_eq hstep.workingDirectory]; exact hsource)
        (by rw [manifestPlace_eq hstep.workingDirectory]; exact hmanifest)
      exact hrest.trans (hstep.contentAt_other hsource hmanifest)

/-- After a run the program is the one of the last success, or what was there. -/
theorem contentAt_finalDisk_source :
    (successes base tree calls = [] →
      (finalDisk base tree calls).contentAt (sourcePlace base tree) =
        tree.contentAt (sourcePlace base tree)) ∧
    ∀ call, (successes base tree calls).getLast? = some call →
      ∃ source, compile call.ui call.handlers = .ok source ∧
        (finalDisk base tree calls).contentAt (sourcePlace base tree) = some (.text source) := by
  induction calls generalizing tree with
  | nil => exact ⟨fun _ => rfl, fun _ h => by cases h⟩
  | cons call rest ih =>
      have hstep := step_run base call tree
      obtain ⟨hnone, hlast⟩ := ih (call.run base tree).1
      rw [sourcePlace_eq hstep.workingDirectory] at hnone hlast
      rw [successes_cons]
      cases hok : (call.run base tree).2.toBool with
      | false =>
          refine ⟨?_, hlast⟩
          intro hempty
          exact (hnone hempty).trans ((hstep.extends_of_failure hok).contentAt _)
      | true =>
          constructor
          · intro hempty
            cases hempty
          · intro last hgetLast
            -- The last success is a later one, or this one with nothing but failures behind it.
            rw [if_pos rfl, List.getLast?_append] at hgetLast
            cases hmore : (successes base (call.run base tree).1 rest).getLast? with
            | some other =>
                obtain rfl : other = last := by simpa [hmore] using hgetLast
                exact hlast other hmore
            | none =>
                obtain rfl : call = last := by simpa [hmore] using hgetLast
                obtain ⟨source, hsource, hcontent⟩ := hstep.contentAt_of_success hok
                refine ⟨source, hsource, ?_⟩
                rw [← hcontent]
                exact hnone (List.getLast?_eq_none_iff.mp hmore)

theorem manifest_kept_finally {entry : Entry}
    (h : tree.get? (manifestPlace base tree) = some entry) :
    (finalDisk base tree calls).get? (manifestPlace base tree) = some entry := by
  induction calls generalizing tree with
  | nil => exact h
  | cons call rest ih =>
      have hstep := step_run base call tree
      have hrest := ih (call.run base tree).1
      rw [manifestPlace_eq hstep.workingDirectory] at hrest
      exact hrest (hstep.manifest_kept h)

/-- After a run the manifest is the one of the first success, if there was none before. -/
theorem manifest_of_first_success (hmissing : tree.get? (manifestPlace base tree) = none)
    (hroute : manifestPlace base tree ∉ tree.route base) :
    (finalDisk base tree calls).get? (manifestPlace base tree) =
      (successes base tree calls).head?.map fun call =>
        .file (.text (Manifest.render call.settings)) := by
  induction calls generalizing tree with
  | nil => exact hmissing
  | cons call rest ih =>
      have hstep := step_run base call tree
      have hwritten := hstep.manifest_written hmissing hroute
      have hplace := manifestPlace_eq hstep.workingDirectory base
      rw [successes_cons]
      cases hok : (call.run base tree).2.toBool with
      | false =>
          rw [hok] at hwritten
          have hrest := ih (call.run base tree).1
          rw [hplace, FileTree.route_eq hstep.workingDirectory] at hrest
          exact hrest hwritten hroute
      | true =>
          rw [hok] at hwritten
          have hkept := @manifest_kept_finally base (call.run base tree).1 rest _
            (by rw [hplace]; exact hwritten)
          rw [hplace] at hkept
          exact hkept

theorem directory_on_route_finally (hroute : manifestPlace base tree ∈ tree.route base)
    (hmissing : tree.get? (manifestPlace base tree) = none)
    (hsome : successes base tree calls ≠ []) :
    (finalDisk base tree calls).get? (manifestPlace base tree) = some .directory := by
  induction calls generalizing tree with
  | nil => exact absurd rfl hsome
  | cons call rest ih =>
      have hstep := step_run base call tree
      have hplace := manifestPlace_eq hstep.workingDirectory base
      have hkept := @manifest_kept_finally base (call.run base tree).1 rest .directory
      have hrest := ih (call.run base tree).1
      rw [hplace] at hkept hrest
      rw [FileTree.route_eq hstep.workingDirectory] at hrest
      rw [successes_cons] at hsome
      cases hok : (call.run base tree).2.toBool with
      | true => exact hkept (hstep.directory_on_route hok hroute)
      | false =>
          -- A run that fails may have made the directory all the same.
          rw [hok] at hsome
          rcases (hstep.extends_of_failure hok).entry (manifestPlace base tree) with
            hsame | ⟨_, hdirectory, _⟩
          · exact hrest hroute (hsame.trans hmissing) hsome
          · exact hkept hdirectory

/-- Once a run has succeeded the directory stays open. -/
theorem canEnter_finalDisk (h : CanEnter base tree ∨ successes base tree calls ≠ []) :
    CanEnter base (finalDisk base tree calls) := by
  induction calls generalizing tree with
  | nil => exact h.resolve_right (fun hsome => hsome rfl)
  | cons call rest ih =>
      have hstep := step_run base call tree
      rw [successes_cons] at h
      cases hok : (call.run base tree).2.toBool with
      | true => exact ih _ (.inl (hstep.canEnter hok))
      | false =>
          rw [hok] at h
          exact ih _ (h.imp_left (CanEnter.of_extends (hstep.extends_of_failure hok)))

end Sequence

/-- Runs into one directory, whatever each of them is given. The source is that of the last
run that succeeded. A manifest that is there is kept, else it is that of the first run that
succeeded, unless the path of the directory leads through its place. No other file changes.
A run that does not compile changes nothing, and one that compiles succeeds exactly if
nothing is in its way. -/
theorem runs_renew_the_source_and_keep_the_manifest (base : Path) (tree : FileTree)
    (calls : List Call) :
    (successes base tree calls ≠ [] →
      (finalDisk base tree calls).locate (base.join ⟨"main.go"⟩) = .ok (sourcePlace base tree) ∧
      (finalDisk base tree calls).locate (base.join ⟨"go.mod"⟩) =
        .ok (manifestPlace base tree)) ∧
    (successes base tree calls = [] →
      (finalDisk base tree calls).contentAt (sourcePlace base tree) =
        tree.contentAt (sourcePlace base tree)) ∧
    (∀ call, (successes base tree calls).getLast? = some call →
      ∃ source, compile call.ui call.handlers = .ok source ∧
        (finalDisk base tree calls).contentAt (sourcePlace base tree) = some (.text source)) ∧
    (∀ entry, tree.get? (manifestPlace base tree) = some entry →
      (finalDisk base tree calls).get? (manifestPlace base tree) = some entry) ∧
    (tree.get? (manifestPlace base tree) = none → manifestPlace base tree ∉ tree.route base →
      (finalDisk base tree calls).get? (manifestPlace base tree) =
        (successes base tree calls).head?.map fun call =>
          .file (.text (Manifest.render call.settings))) ∧
    (tree.get? (manifestPlace base tree) = none → manifestPlace base tree ∈ tree.route base →
      successes base tree calls ≠ [] →
      (finalDisk base tree calls).get? (manifestPlace base tree) = some .directory) ∧
    (∀ l, l ≠ sourcePlace base tree → l ≠ manifestPlace base tree →
      (finalDisk base tree calls).contentAt l = tree.contentAt l) ∧
    ∀ event ∈ history base tree calls,
      (∀ e, compile event.call.ui event.call.handlers = .error e →
        event.result = .error (.compile e) ∧ event.after = event.before) ∧
      (event.result = .error .output →
        ∀ l, event.after.contentAt l = event.before.contentAt l) ∧
      (∀ g, event.result = .ok g →
        (g.written, g.skipped) =
          if event.before.get? (manifestPlace base tree) = none ∧
              manifestPlace base tree ∉ tree.route base then
            (["main.go", "go.mod"], [])
          else (["main.go"], ["go.mod"])) ∧
      (tree.ParentClosed → tree.get? (tree.origin base) = some .directory →
        ∀ source, compile event.call.ui event.call.handlers = .ok source →
          ((∃ g, event.result = .ok g) ↔ CanWrite base event.before)) := by
  have hsource := contentAt_finalDisk_source base tree calls
  refine ⟨?_, hsource.1, hsource.2, fun _ => manifest_kept_finally base tree calls,
    manifest_of_first_success base tree calls,
    fun hmissing hroute => directory_on_route_finally base tree calls hroute hmissing,
    fun _ => contentAt_finalDisk_other base tree calls, ?_⟩
  · intro hsome
    have hlocate := (canEnter_finalDisk base tree calls (.inr hsome)).locate
    have hdirectory := (keeps_finalDisk base tree calls).workingDirectory
    rw [sourcePlace_eq hdirectory, manifestPlace_eq hdirectory] at hlocate
    exact hlocate
  · intro event hevent
    obtain ⟨hkeeps, hstep⟩ := mem_history hevent
    refine ⟨fun e => hstep.refuses, ?_, ?_, ?_⟩
    · intro hfails
      exact (hstep.extends_of_failure (by rw [hfails]; rfl)).contentAt
    · intro g hok
      have hdirectory := hkeeps.workingDirectory
      have hreport := hstep.report hok
      rw [manifestPlace_eq hdirectory, FileTree.route_eq hdirectory] at hreport
      exact hreport
    · intro hclosed horigin text htext
      rw [← hstep.succeeds_iff htext (hkeeps.parentClosed hclosed)
        (by rw [FileTree.origin_eq hkeeps.workingDirectory]; exact hkeeps.directory _ horigin)]
      cases event.result <;> simp [Except.toBool]

/-- A run that does not compile and two that do, with different settings. -/
theorem runs_renew_the_source_and_keep_the_manifest_in_order :
    ∃ (refused first second : Call) (source : String),
      refused.settings.module = "refused" ∧ first.settings.module = "first" ∧
      second.settings.module = "second" ∧
      successes ⟨"out"⟩ {} [refused, first, second] = [first, second] ∧
      compile second.ui second.handlers = .ok source ∧
      (finalDisk ⟨"out"⟩ {} [refused, first, second]).contentAt ["out", "main.go"] =
        some (.text source) ∧
      (finalDisk ⟨"out"⟩ {} [refused, first, second]).get? ["out", "go.mod"] =
        some (.file (.text (Manifest.render first.settings))) := by
  let refused : Call := ⟨{ elements := [.ofKind "chart"] }, .empty, { module := "refused" }⟩
  let first : Call :=
    ⟨{ elements := [(Ui.Element.ofKind "text").withValue "old"] }, .empty, { module := "first" }⟩
  let second : Call :=
    ⟨{ elements := [(Ui.Element.ofKind "text").withValue "new"] }, .empty, { module := "second" }⟩
  have hrefused : (refused.run ⟨"out"⟩ {}).2.toBool = false := by decide +kernel
  have hfirst : (first.run ⟨"out"⟩ (refused.run ⟨"out"⟩ {}).1).2.toBool = true := by decide +kernel
  have hsecond : (second.run ⟨"out"⟩ (first.run ⟨"out"⟩ (refused.run ⟨"out"⟩ {}).1).1).2.toBool =
      true := by decide +kernel
  have hsuccesses : successes ⟨"out"⟩ {} [refused, first, second] = [first, second] := by
    rw [successes_cons, successes_cons, successes_cons, hrefused, hfirst, hsecond]
    rfl
  obtain ⟨_, _, hsource, _, hmanifest, _⟩ :=
    runs_renew_the_source_and_keep_the_manifest ⟨"out"⟩ {} [refused, first, second]
  rw [hsuccesses] at hsource hmanifest
  obtain ⟨source, hcompile, hcontent⟩ := hsource second rfl
  exact ⟨refused, first, second, source, rfl, rfl, rfl, hsuccesses, hcompile, hcontent,
    hmanifest (by decide +kernel) (by decide +kernel)⟩

/-- A path that leads through the place of the manifest. There is no manifest before, but
a directory by the time it would be written. -/
theorem manifest_place_on_the_way :
    manifestPlace ⟨"go.mod/.."⟩ {} = ["go.mod"] ∧
      ({} : FileTree).get? ["go.mod"] = none ∧
      (Call.run ⟨{}, .empty, {}⟩ ⟨"go.mod/.."⟩ {}).2 =
        .ok { written := ["main.go"], skipped := ["go.mod"] } ∧
      (Call.run ⟨{}, .empty, {}⟩ ⟨"go.mod/.."⟩ {}).1.get? ["go.mod"] = some .directory := by
  decide +kernel

end Generation

end GioForge
