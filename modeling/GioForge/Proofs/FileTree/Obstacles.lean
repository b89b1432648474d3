import GioForge.Proofs.FileTree.Storing

/-!
When directories can be made. Nothing but a file on the way, a name that is too long or a
path that no disk takes can keep the directories of a path from being made, on a disk on
which everything lies in a directory. Where the directory above the last one is missing it
is made first, so the proof goes from a path to its parent.
-/

namespace GioForge

open GioForge.Path

namespace FileTree

/-- Nothing is in the way of the directories of a path. -/
structure IsClear (tree : FileTree) (path : Path) : Prop where
  names : ∀ step ∈ path.steps, isUsableName step = true
  noFile : ∀ l ∈ tree.route path, ∀ content, tree.get? l ≠ some (.file content)

section

variable {tree larger : FileTree} {path above : Path}

/-- What is clear stays so while only directories are added. -/
theorem IsClear.of_extends {places : List Location} (h : tree.IsClear path)
    (hlarger : tree.Extends larger places) : larger.IsClear path := by
  refine ⟨h.names, ?_⟩
  intro l hl content hfile
  rw [hlarger.route] at hl
  rcases hlarger.entry l with hsame | ⟨_, hdirectory, _⟩
  · exact h.noFile l hl content (hsame ▸ hfile)
  · rw [hdirectory] at hfile
    cases hfile

theorem IsClear.before_extends {places : List Location} (h : larger.IsClear path)
    (hlarger : tree.Extends larger places) : tree.IsClear path := by
  refine ⟨h.names, ?_⟩
  intro l hl content hfile
  rw [← hlarger.route] at hl
  exact h.noFile l hl content (hlarger.get?_of_some hfile)

theorem IsClear.parent (h : tree.IsClear path) (hparent : path.parent? = some above) :
    tree.IsClear above := by
  refine ⟨?_, fun l hl => h.noFile l (route_subset_of_parent hparent hl)⟩
  intro step hstep
  rw [(parent?_spec hparent).2.1] at hstep
  exact h.names step (List.dropLast_subset path.steps hstep)

/-- An open way is clear. -/
theorem IsOpen.isClear (h : tree.IsOpen (tree.origin path) path.steps) : tree.IsClear path := by
  refine ⟨?_, ?_⟩
  · generalize tree.origin path = here at h
    generalize path.steps = steps at h
    induction steps generalizing here with
    | nil => simp
    | cons first rest ih =>
        intro step hstep
        rcases List.mem_cons.mp hstep with rfl | hrest
        · exact h.2.1
        · exact ih _ h.2.2 step hrest
  · intro l hl content hfile
    rw [get?_of_mem_route h hl] at hfile
    cases hfile

/-- On a clear way the only thing that can go wrong is that something is missing. -/
theorem walk_of_clear {here : Location} {parts : List String}
    (hnames : ∀ step ∈ parts.filter isStep, isUsableName step = true)
    (hfiles : ∀ l ∈ waypoints here parts, ∀ content, tree.get? l ≠ some (.file content)) :
    tree.walk here parts = .error .missing ∨
      ∃ l ∈ waypoints here parts, tree.walk here parts = .ok l := by
  induction parts generalizing here with
  | nil => exact .inr ⟨here, by simp [waypoints], rfl⟩
  | cons part rest ih =>
      rw [waypoints_cons, List.forall_mem_cons] at hfiles
      rw [waypoints_cons]
      simp only [List.mem_cons, exists_eq_or_imp]
      by_cases hhere : tree.get? here = some .directory
      · rw [walk_cons hhere]
        by_cases hstep : isStep part = true
        · rw [List.filter_cons_of_pos hstep, List.forall_mem_cons] at hnames
          rw [if_pos hstep] at hfiles ⊢
          rw [if_pos hstep, if_pos hnames.1]
          exact (ih hnames.2 hfiles.2).imp_right .inr
        · rw [List.filter_cons_of_neg hstep] at hnames
          rw [if_neg hstep] at hfiles ⊢
          rw [if_neg hstep]
          exact (ih hnames hfiles.2).imp_right .inr
      · left
        rw [walk_of_not_directory hhere]
        cases hentry : tree.get? here with
        | none => rfl
        | some entry =>
            cases entry with
            | directory => exact absurd hentry hhere
            | file content => exact absurd hentry (hfiles.1 content)

end

section

variable {tree : FileTree} {path : Path} {front : List String} {name : String}

theorem steps_of_parts (hparts : path.parts = front ++ [name]) (hstep : isStep name = true) :
    path.steps = front.filter isStep ++ [name] := by
  rw [steps, hparts, List.filter_append, List.filter_cons, if_pos hstep, List.filter_nil]

theorem significantParts_of_parts (hparts : path.parts = front ++ [name])
    (hstep : isStep name = true) : significantParts path = front ++ [name] := by
  have hname : ¬ name.isEmpty = true := by
    intro hempty
    rw [String.isEmpty_iff.mp hempty] at hstep
    cases hstep
  unfold significantParts
  rw [hparts, List.reverse_append, List.reverse_singleton, List.singleton_append,
    List.dropWhile_cons_of_neg hname, List.reverse_cons, List.reverse_reverse]

theorem text_ne_empty (hparts : path.parts = front ++ [name]) (hstep : isStep name = true) :
    ¬ path.text.isEmpty = true := by
  intro hempty
  have hnone : path.steps = [] := by
    rw [steps_eq_stepsOf, String.isEmpty_iff.mp hempty]
    rfl
  rw [steps_of_parts hparts hstep] at hnone
  simp at hnone

/-- To make a directory is to find the place of its last part and to make it there. -/
theorem makeDirectory_of_parts (hparts : path.parts = front ++ [name])
    (hstep : isStep name = true) (husable : path.isUsable = true) :
    tree.makeDirectory path = (tree.locateLast path (front ++ [name]) >>= tree.makeAt) := by
  rw [makeDirectory_eq, if_neg (text_ne_empty hparts hstep), if_neg (by simp [husable]),
    significantParts_of_parts hparts hstep, if_neg (by simp)]

/-- In a directory that is there, the last directory is made or is there already. -/
theorem makeDirectory_in_open (hparts : path.parts = front ++ [name]) (hstep : isStep name = true)
    (husable : path.isUsable = true) (hclosed : tree.ParentClosed) (hclear : tree.IsClear path)
    (hopen : tree.IsOpen (tree.origin path) (front.filter isStep)) :
    (∃ made, tree.makeDirectory path = .ok made ∧ made.IsOpen (made.origin path) path.steps) ∨
      tree.IsOpen (tree.origin path) path.steps := by
  have hsteps := steps_of_parts hparts hstep
  have hname : isUsableName name = true := hclear.names name (by simp [hsteps])
  have hthere : tree.get? (advance (reach (tree.origin path) (front.filter isStep)) name) =
      some .directory → tree.IsOpen (tree.origin path) path.steps := by
    intro hdirectory
    rw [hsteps, isOpen_append]
    exact ⟨hopen, hopen.finish, hname, hdirectory⟩
  by_cases hup : name = ".."
  · right
    apply hthere
    rw [advance, if_pos hup]
    exact hclosed.dropLast hopen.finish
  · have hadvance : advance (reach (tree.origin path) (front.filter isStep)) name =
        reach (tree.origin path) (front.filter isStep) ++ [name] := if_neg hup
    rw [hadvance] at hthere
    have htrivial : ¬ ((name = "" || name = "." || name = "..") = true) := by
      simp only [isStep, Bool.and_eq_true, decide_eq_true_eq] at hstep
      simp [hstep, hup]
    cases hentry : tree.get? (reach (tree.origin path) (front.filter isStep) ++ [name]) with
    | some entry =>
        cases entry with
        | directory => exact .inr (hthere hentry)
        | file content =>
            have hroute : reach (tree.origin path) (front.filter isStep) ++ [name] ∈
                tree.route path := by
              refine mem_route_iff.mpr ⟨path.steps, List.prefix_rfl, ?_⟩
              rw [hsteps, reach_append, ← hadvance]
              rfl
            exact absurd hentry (hclear.noFile _ hroute content)
    | none =>
        left
        refine ⟨tree.set (reach (tree.origin path) (front.filter isStep) ++ [name]) .directory,
          ?_, ?_⟩
        · rw [makeDirectory_of_parts hparts hstep husable, locateLast_of_open hopen,
            if_neg htrivial, if_pos hname]
          simp only [bind, Except.bind, makeAt, hentry]
        · have hvacant : tree.IsVacant
              (reach (tree.origin path) (front.filter isStep) ++ [name]) :=
            ⟨by simp, by simp [hentry], by rw [List.dropLast_concat]; exact hopen.finish⟩
          have hkept := hopen.set hvacant .directory
          rw [hsteps, isOpen_append]
          refine ⟨hkept, hkept.finish, hname, ?_⟩
          exact (get?_set _ _ _ _ hvacant.ne_nil).trans (if_pos hadvance)

/-- If the directory above is not there, the disk says that something is missing. -/
theorem makeDirectory_missing (hparts : path.parts = front ++ [name]) (hstep : isStep name = true)
    (husable : path.isUsable = true) (hclear : tree.IsClear path)
    (hopen : ¬ tree.IsOpen (tree.origin path) (front.filter isStep)) :
    tree.makeDirectory path = .error .missing := by
  have hsteps := steps_of_parts hparts hstep
  have hfiles : ∀ l ∈ waypoints (tree.origin path) front, ∀ content,
      tree.get? l ≠ some (.file content) := by
    intro l hl
    obtain ⟨before, hbefore, rfl⟩ := mem_waypoints_iff.mp hl
    refine hclear.noFile _ (mem_route_iff.mpr ⟨before, hbefore.trans ?_, rfl⟩)
    rw [hsteps]
    exact List.prefix_append _ _
  have hnames : ∀ step ∈ front.filter isStep, isUsableName step = true := by
    intro step hmem
    exact hclear.names step (by rw [hsteps]; exact List.mem_append_left _ hmem)
  rw [makeDirectory_of_parts hparts hstep husable, locateLast_concat]
  rcases walk_of_clear hnames hfiles with hwalk | ⟨l, hl, hwalk⟩
  · rw [hwalk]
    rfl
  · rw [hwalk]
    simp only [bind, Except.bind]
    cases hentry : tree.get? l with
    | none => rfl
    | some entry =>
        cases entry with
        | directory => exact absurd (walk_directory_iff.mp ⟨hwalk, hentry⟩).1 hopen
        | file content => exact absurd hentry (hfiles l hl content)

end

/-- If nothing is in the way, all directories of a path are made. -/
theorem makeDirectories_of_clear {path : Path} {tree : FileTree} {fuel : Nat}
    (hfuel : path.text.length < fuel) (hends : path.steps ≠ [] → path.EndsInStep)
    (husable : path.isUsable = true) (hclosed : tree.ParentClosed)
    (horigin : tree.get? (tree.origin path) = some .directory) (hclear : tree.IsClear path) :
    (makeDirectories fuel path tree).2 = true ∧
      (makeDirectories fuel path tree).1.IsOpen (tree.origin path) path.steps := by
  induction fuel generalizing path with
  | zero => omega
  | succ fuel ih =>
      by_cases hthere : tree.IsOpen (tree.origin path) path.steps
      · rw [makeDirectories_of_open husable hthere]
        exact ⟨rfl, hthere⟩
      · have hsome : path.steps ≠ [] := by
          intro hnone
          rw [hnone] at hthere
          exact hthere horigin
        obtain ⟨front, name, hparts, hstep⟩ := hends hsome
        have habove : path.steps.dropLast = front.filter isStep := by
          rw [steps_of_parts hparts hstep, List.dropLast_concat]
        rw [makeDirectories, if_neg (text_ne_empty hparts hstep)]
        -- Only the last directory is missing, or the one above it has to be made first.
        by_cases hopen : tree.IsOpen (tree.origin path) (front.filter isStep)
        · obtain ⟨made, hmake, hmade⟩ :=
            (makeDirectory_in_open hparts hstep husable hclosed hclear hopen).resolve_right hthere
          rw [hmake]
          exact ⟨rfl, (extends_of_makeDirectory hmake).origin path ▸ hmade⟩
        · rw [makeDirectory_missing hparts hstep husable hclear hopen]
          obtain ⟨above, hparent⟩ := exists_parent? hsome
          obtain ⟨hpart, hsteps, habsolute⟩ := parent?_spec hparent
          have horiginAbove : tree.origin above = tree.origin path := by
            unfold origin
            rw [habsolute]
          have hlength := length_parent? hparent
          obtain ⟨hready, hopenAbove⟩ := ih (by omega) (endsInStep_parent? hparent)
            (isUsable_of_isPrefix hpart husable) (horiginAbove ▸ horigin) (hclear.parent hparent)
          have hextends := extends_makeDirectories fuel above tree
          rw [horiginAbove, hsteps, habove] at hopenAbove
          dsimp only
          rw [hparent]
          dsimp only
          generalize makeDirectories fuel above tree = result at hready hopenAbove hextends
          obtain ⟨lower, ready⟩ := result
          obtain rfl : ready = true := hready
          have horiginLower := hextends.origin path
          dsimp only at hopenAbove hextends ⊢
          rw [← horiginLower] at hopenAbove
          rcases makeDirectory_in_open hparts hstep husable (hextends.parentClosed hclosed)
            (hclear.of_extends hextends) hopenAbove with ⟨made, hmake, hmade⟩ | hlower
          · rw [hmake]
            exact ⟨rfl, horiginLower ▸ (extends_of_makeDirectory hmake).origin path ▸ hmade⟩
          · obtain ⟨obstacle, hmake⟩ := makeDirectory_of_open hlower
            have hdirectory := isDirectory_of_open
              (fun h => text_ne_empty hparts hstep (String.isEmpty_iff.mpr h)) husable hlower
            rw [hmake]
            exact ⟨hdirectory, horiginLower ▸ hlower⟩

/-- A file can be written exactly if nothing is in the way of its directory and its place
neither is a directory nor will become one when the directories are made. -/
theorem store_join_ok_iff {name : String} (h : IsPlain name) (hname : isUsableName name = true)
    {tree : FileTree} {base : Path} (hclosed : tree.ParentClosed)
    (horigin : tree.get? (tree.origin base) = some .directory) (text : String) :
    (tree.store (base.join ⟨name⟩) text).2 = true ↔
      (base.join ⟨name⟩).isUsable = true ∧ tree.IsClear base ∧
        tree.get? (tree.destination base ++ [name]) ≠ some .directory ∧
        tree.destination base ++ [name] ∉ tree.route base := by
  constructor
  · intro hstore
    obtain ⟨made, hmade, hfails | ⟨husable, hopen, hother, _⟩⟩ := store_join h hname tree base text
    · rw [hfails] at hstore
      cases hstore
    · rw [destination_eq hmade.workingDirectory] at hother
      refine ⟨husable, hopen.isClear.before_extends hmade,
        fun hdirectory => hother (hmade.get?_of_some hdirectory), ?_⟩
      intro hroute
      rw [← hmade.route] at hroute
      exact hother (get?_of_mem_route hopen hroute)
  · rintro ⟨husable, hclear, hother, hroute⟩
    obtain ⟨above, hparent⟩ := exists_parent? (p := base.join ⟨name⟩) (by simp [steps_join h])
    obtain ⟨hsteps, horiginAbove, hrouteAbove⟩ := parent_join h hparent tree
    have hclearAbove : tree.IsClear above :=
      ⟨hsteps ▸ hclear.names, fun l hl => hclear.noFile l ((hrouteAbove l).mp hl)⟩
    obtain ⟨hready, hopen⟩ := makeDirectories_of_clear (Nat.lt_succ_self above.text.length)
      (endsInStep_parent? hparent) (isUsable_of_isPrefix (parent?_spec hparent).1 husable) hclosed
      (horiginAbove ▸ horigin) hclearAbove
    have hmade := extends_makeDirectories (above.text.length + 1) above tree
    unfold store
    rw [hparent]
    dsimp only
    generalize makeDirectories (above.text.length + 1) above tree = result at hready hopen hmade
    obtain ⟨made, ready⟩ := result
    obtain rfl : ready = true := hready
    dsimp only at hopen hmade ⊢
    have hopenBase : made.IsOpen (made.origin base) base.steps := by
      rw [hmade.origin, ← horiginAbove, ← hsteps]
      exact hopen
    have hstill : made.get? (made.destination base ++ [name]) ≠ some .directory := by
      rw [destination_eq hmade.workingDirectory]
      intro hdirectory
      rcases hmade.entry (tree.destination base ++ [name]) with hsame | ⟨_, _, hmem⟩
      · exact hother (hsame ▸ hdirectory)
      · exact hroute ((hrouteAbove _).mp hmem)
    rw [(writeText_join_ok_iff h hname text _).mpr ⟨husable, hopenBase, hstill, rfl⟩]
    rfl

end FileTree

end GioForge
