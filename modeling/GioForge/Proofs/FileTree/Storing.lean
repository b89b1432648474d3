import GioForge.FileTree
import GioForge.Proofs.Path.Parent
import Mathlib.Data.List.Basic
import Mathlib.Data.List.Induction

/-!
What writing a file does to a disk. Directories are made on the way, at places the path
passes and where there was nothing; then the file is put into its place, or nothing more
happens. A path is followed step by step, and as directories are never taken away, a way
that is open stays open.
-/

namespace GioForge

open GioForge.Path

namespace FileTree

def advance (here : Location) (step : String) : Location :=
  if step = ".." then here.dropLast else here ++ [step]

/-- Where steps lead from a place, whatever is there. -/
def reach (here : Location) (steps : List String) : Location :=
  steps.foldl advance here

/-- The place that a path stands for. -/
def destination (tree : FileTree) (path : Path) : Location :=
  reach (tree.origin path) path.steps

/-- The places that a path goes through, both ends included. -/
def route (tree : FileTree) (path : Path) : List Location :=
  waypoints (tree.origin path) path.parts

/-- All places on the way of the steps are directories, the last one too. -/
def IsOpen (tree : FileTree) : Location → List String → Prop
  | here, [] => tree.get? here = some .directory
  | here, step :: rest =>
      tree.get? here = some .directory ∧ isUsableName step = true ∧
        IsOpen tree (advance here step) rest

/-- Everything lies in a directory. -/
def ParentClosed (tree : FileTree) : Prop :=
  ∀ l name, tree.get? (l ++ [name]) ≠ none → tree.get? l = some .directory

/-- Something can be put into the place. -/
structure IsVacant (tree : FileTree) (place : Location) : Prop where
  ne_nil : place ≠ []
  noDirectory : tree.get? place ≠ some .directory
  above : tree.get? place.dropLast = some .directory

/-- The second disk is the first one with directories made at some of the places. -/
structure Extends (tree larger : FileTree) (places : List Location) : Prop where
  workingDirectory : larger.workingDirectory = tree.workingDirectory
  parentClosed : tree.ParentClosed → larger.ParentClosed
  entry : ∀ l, larger.get? l = tree.get? l ∨
    tree.get? l = none ∧ larger.get? l = some .directory ∧ l ∈ places

theorem ParentClosed.dropLast {tree : FileTree} (h : tree.ParentClosed) {l : Location}
    (hl : tree.get? l = some .directory) : tree.get? l.dropLast = some .directory := by
  rcases List.eq_nil_or_concat' l with rfl | ⟨front, name, rfl⟩
  · exact hl
  · rw [List.dropLast_concat]
    exact h front name (by rw [hl]; simp)

/-- Filling a vacant place leaves every directory where it was. -/
theorem IsVacant.directory_kept {tree : FileTree} {place : Location} (h : tree.IsVacant place)
    (entry : Entry) {l : Location} (hl : tree.get? l = some .directory) :
    (tree.set place entry).get? l = some .directory := by
  rw [get?_set _ _ _ _ h.ne_nil, if_neg]
  · exact hl
  · rintro rfl
    exact h.noDirectory hl

theorem ParentClosed.set {tree : FileTree} (h : tree.ParentClosed) {place : Location}
    (hplace : tree.IsVacant place) (entry : Entry) : (tree.set place entry).ParentClosed := by
  intro l name hsome
  rw [get?_set _ _ _ _ hplace.ne_nil] at hsome
  apply hplace.directory_kept
  split_ifs at hsome with hl
  · have habove := hplace.above
    rw [← hl, List.dropLast_concat] at habove
    exact habove
  · exact h l name hsome

section Following

variable {tree larger : FileTree} {here l : Location}

theorem origin_eq (h : larger.workingDirectory = tree.workingDirectory) (path : Path) :
    larger.origin path = tree.origin path := by
  unfold origin
  rw [h]

/-- Where a path leads depends on the working directory and on nothing else. -/
theorem destination_eq (h : larger.workingDirectory = tree.workingDirectory) (path : Path) :
    larger.destination path = tree.destination path := by
  unfold destination
  rw [origin_eq h]

theorem route_eq (h : larger.workingDirectory = tree.workingDirectory) (path : Path) :
    larger.route path = tree.route path := by
  unfold route
  rw [origin_eq h]

theorem reach_append (here : Location) (first second : List String) :
    reach here (first ++ second) = reach (reach here first) second :=
  List.foldl_append

theorem IsOpen.start {steps : List String} (h : tree.IsOpen here steps) :
    tree.get? here = some .directory := by
  cases steps with
  | nil => exact h
  | cons step rest => exact h.1

theorem isOpen_append (first second : List String) :
    tree.IsOpen here (first ++ second) ↔
      tree.IsOpen here first ∧ tree.IsOpen (reach here first) second := by
  induction first generalizing here with
  | nil => exact ⟨fun h => ⟨h.start, h⟩, fun h => h.2⟩
  | cons step rest ih =>
      have hreach : reach here (step :: rest) = reach (advance here step) rest := rfl
      simp only [List.cons_append, IsOpen, ih, hreach, and_assoc]

theorem IsOpen.finish {steps : List String} (h : tree.IsOpen here steps) :
    tree.get? (reach here steps) = some .directory := by
  rw [← List.append_nil steps, isOpen_append] at h
  exact h.2

/-- A way stays open as long as no directory on it is lost. -/
theorem IsOpen.mono {steps : List String} (h : tree.IsOpen here steps)
    (hkept : ∀ l, tree.get? l = some .directory → larger.get? l = some .directory) :
    larger.IsOpen here steps := by
  induction steps generalizing here with
  | nil => exact hkept here h
  | cons step rest ih => exact ⟨hkept here h.1, h.2.1, ih h.2.2⟩

theorem IsOpen.set {steps : List String} (h : tree.IsOpen here steps) {place : Location}
    (hplace : tree.IsVacant place) (entry : Entry) : (tree.set place entry).IsOpen here steps :=
  h.mono fun _ => hplace.directory_kept entry

theorem trivial_iff_not_isStep (part : String) :
    (part = "" || part = ".") = !isStep part := by
  simp [isStep]

/-- A directory is left by the next step, and by nothing else. -/
theorem walk_cons (hhere : tree.get? here = some .directory) (part : String)
    (rest : List String) :
    tree.walk here (part :: rest) =
      if isStep part then
        if isUsableName part then tree.walk (advance here part) rest else .error .unusable
      else tree.walk here rest := by
  have hup : isUsableName ".." = true := by decide +kernel
  simp only [walk, hhere, trivial_iff_not_isStep]
  cases isStep part with
  | false => rfl
  | true =>
      by_cases hpart : part = ".."
      · simp [hpart, hup, advance]
      · simp [hpart, advance]

theorem waypoints_cons (here : Location) (part : String) (rest : List String) :
    waypoints here (part :: rest) =
      here :: if isStep part then waypoints (advance here part) rest else waypoints here rest := by
  simp only [waypoints, trivial_iff_not_isStep]
  cases isStep part with
  | false => rfl
  | true =>
      unfold advance
      by_cases hpart : part = ".." <;> simp [hpart]

theorem walk_of_not_directory (hhere : tree.get? here ≠ some .directory) (part : String)
    (rest : List String) :
    tree.walk here (part :: rest) =
      .error (if tree.get? here = none then .missing else .notDirectory) := by
  unfold walk
  split
  · next hnone => simp [hnone]
  · next hfile => simp [hfile]
  · next hdirectory => exact absurd hdirectory hhere

/-- Following parts to a directory means that the way of their steps is open. -/
theorem walk_directory_iff {parts : List String} :
    tree.walk here parts = .ok l ∧ tree.get? l = some .directory ↔
      tree.IsOpen here (parts.filter isStep) ∧ l = reach here (parts.filter isStep) := by
  induction parts generalizing here with
  | nil =>
      simp only [walk, List.filter_nil, IsOpen, reach, List.foldl_nil, Except.ok.injEq]
      constructor
      · rintro ⟨rfl, h⟩
        exact ⟨h, rfl⟩
      · rintro ⟨h, rfl⟩
        exact ⟨rfl, h⟩
  | cons part rest ih =>
      by_cases hhere : tree.get? here = some .directory
      · rw [walk_cons hhere]
        by_cases hstep : isStep part = true
        · have hreach : reach here (part :: rest.filter isStep) =
              reach (advance here part) (rest.filter isStep) := rfl
          rw [List.filter_cons_of_pos hstep, if_pos hstep, IsOpen, hreach]
          by_cases husable : isUsableName part = true
          · simp [husable, hhere, ih]
          · simp [husable]
        · rw [List.filter_cons_of_neg hstep, if_neg hstep]
          exact ih
      · rw [walk_of_not_directory hhere]
        constructor
        · rintro ⟨hwalk, _⟩
          cases hwalk
        · rintro ⟨hopen, _⟩
          exact absurd hopen.start hhere

/-- A walk is the walk along its first part and then along the rest. -/
theorem walk_append (tree : FileTree) (here : Location) (first second : List String) :
    tree.walk here (first ++ second) =
      (tree.walk here first >>= fun l => tree.walk l second) := by
  induction first generalizing here with
  | nil => rfl
  | cons part rest ih =>
      simp only [List.cons_append, walk]
      split
      · rfl
      · rfl
      · split_ifs
        · exact ih _
        · exact ih _
        · exact ih _
        · rfl

theorem mem_waypoints_iff {parts : List String} :
    l ∈ waypoints here parts ↔
      ∃ before, before <+: parts.filter isStep ∧ l = reach here before := by
  induction parts generalizing here with
  | nil => simp [waypoints, reach]
  | cons part rest ih =>
      rw [waypoints_cons, List.mem_cons]
      by_cases hstep : isStep part = true
      · rw [List.filter_cons_of_pos hstep, if_pos hstep, ih]
        constructor
        · rintro (rfl | ⟨before, hbefore, rfl⟩)
          · exact ⟨[], List.nil_prefix, rfl⟩
          · exact ⟨part :: before, List.prefix_cons_iff.mpr (.inr ⟨before, rfl, hbefore⟩), rfl⟩
        · rintro ⟨before, hbefore, rfl⟩
          rcases List.prefix_cons_iff.mp hbefore with rfl | ⟨more, rfl, hmore⟩
          · exact .inl rfl
          · exact .inr ⟨more, hmore, rfl⟩
      · rw [List.filter_cons_of_neg hstep, if_neg hstep, ih]
        constructor
        · rintro (rfl | h)
          · exact ⟨[], List.nil_prefix, rfl⟩
          · exact h
        · exact .inr

/-- The route to a path is made of the places that its first steps reach. -/
theorem mem_route_iff {path : Path} :
    l ∈ tree.route path ↔
      ∃ before, before <+: path.steps ∧ l = reach (tree.origin path) before :=
  mem_waypoints_iff

/-- On an open way everything a path goes through is a directory. -/
theorem get?_of_mem_route {path : Path} (hopen : tree.IsOpen (tree.origin path) path.steps)
    (h : l ∈ tree.route path) : tree.get? l = some .directory := by
  obtain ⟨before, ⟨after, hsteps⟩, rfl⟩ := mem_route_iff.mp h
  rw [← hsteps, isOpen_append] at hopen
  exact hopen.1.finish

theorem locateLast_concat (path : Path) (front : List String) (name : String) :
    tree.locateLast path (front ++ [name]) =
      (tree.walk (tree.origin path) front >>= fun here =>
        match tree.get? here with
        | some .directory =>
            if name = "" || name = "." || name = ".." then .error .present
            else if isUsableName name then .ok (here, name)
            else .error .unusable
        | some (.file _) => .error .notDirectory
        | none => .error .missing) := by
  unfold locateLast
  rw [List.getLast?_concat, List.dropLast_concat]
  rfl

/-- Along an open way only the last part decides. -/
theorem locateLast_of_open {path : Path} {front : List String}
    (hopen : tree.IsOpen (tree.origin path) (front.filter isStep)) (name : String) :
    tree.locateLast path (front ++ [name]) =
      if name = "" || name = "." || name = ".." then .error .present
      else if isUsableName name then
        .ok (reach (tree.origin path) (front.filter isStep), name)
      else .error .unusable := by
  obtain ⟨hwalk, hdirectory⟩ := walk_directory_iff.mpr ⟨hopen, rfl⟩
  rw [locateLast_concat, hwalk]
  simp only [bind, Except.bind, hdirectory]

theorem locateLast_ok {path : Path} {parts : List String} {name : String}
    (h : tree.locateLast path parts = .ok (here, name)) :
    ∃ front, parts = front ++ [name] ∧
      tree.IsOpen (tree.origin path) (front.filter isStep) ∧
      here = reach (tree.origin path) (front.filter isStep) ∧
      isStep name = true ∧ name ≠ ".." := by
  rcases List.eq_nil_or_concat' parts with rfl | ⟨front, last, rfl⟩
  · cases h
  · rw [locateLast_concat] at h
    cases hwalk : tree.walk (tree.origin path) front with
    | error e =>
        rw [hwalk] at h
        cases h
    | ok l =>
        simp only [hwalk, bind, Except.bind] at h
        split at h
        · next hdirectory =>
            split_ifs at h with htrivial husable
            obtain ⟨rfl, rfl⟩ := Prod.mk.inj (Except.ok.inj h)
            obtain ⟨hopen, hl⟩ := walk_directory_iff.mp ⟨hwalk, hdirectory⟩
            simp only [Bool.or_eq_true, decide_eq_true_eq, not_or] at htrivial
            exact ⟨front, rfl, hopen, hl, by simp [isStep, htrivial], htrivial.2⟩
        · cases h
        · cases h

/-- An open way lacks nothing. -/
theorem locateLast_ne_missing {path : Path} {parts : List String} (hparts : parts ≠ [])
    (hopen : tree.IsOpen (tree.origin path) (parts.filter isStep)) :
    tree.locateLast path parts ≠ .error .missing := by
  obtain ⟨front, name, rfl⟩ := (List.eq_nil_or_concat' parts).resolve_left hparts
  rw [List.filter_append, isOpen_append] at hopen
  rw [locateLast_of_open hopen.1]
  split_ifs <;> simp

end Following

section Making

variable {tree : FileTree}

theorem filter_significantParts (path : Path) :
    (significantParts path).filter isStep = path.steps := by
  unfold significantParts steps
  rw [List.filter_reverse]
  generalize path.parts = parts
  induction parts using List.reverseRecOn with
  | nil => rfl
  | append_singleton front last ih =>
      rw [List.reverse_append, List.reverse_singleton, List.singleton_append,
        List.dropWhile_cons, List.filter_append]
      split_ifs with hempty
      · have hlast : [last].filter isStep = [] := by
          simp [isStep, String.isEmpty_iff.mp hempty]
        rw [ih, hlast, List.append_nil]
      · rw [List.filter_cons, List.filter_cons]
        split_ifs <;> simp

def makeAt (tree : FileTree) (place : Location × String) : Except Obstacle FileTree :=
  match tree.get? (place.1 ++ [place.2]) with
  | some _ => .error .present
  | none => .ok (tree.set (place.1 ++ [place.2]) .directory)

theorem makeDirectory_eq (tree : FileTree) (path : Path) :
    tree.makeDirectory path =
      if path.text.isEmpty then .error .missing
      else if !path.isUsable then .error .unusable
      else if (significantParts path).isEmpty then .error .present
      else tree.locateLast path (significantParts path) >>= tree.makeAt := by
  unfold makeDirectory
  split_ifs <;> rfl

/-- A directory is made at the end of the path, where there was nothing. -/
theorem makeDirectory_ok {path : Path} {made : FileTree} (h : tree.makeDirectory path = .ok made) :
    tree.get? (tree.destination path) = none ∧ tree.IsVacant (tree.destination path) ∧
      made = tree.set (tree.destination path) .directory := by
  rw [makeDirectory_eq] at h
  split_ifs at h
  cases hlocate : tree.locateLast path (significantParts path) with
  | error e =>
      rw [hlocate] at h
      cases h
  | ok place =>
      obtain ⟨here, name⟩ := place
      obtain ⟨front, hparts, hopen, hhere, hstep, hup⟩ := locateLast_ok hlocate
      have hdestination : tree.destination path = here ++ [name] := by
        unfold destination
        rw [← filter_significantParts, hparts, List.filter_append, reach_append, ← hhere,
          List.filter_cons, if_pos hstep]
        simp [reach, advance, hup]
      simp only [hlocate, bind, Except.bind, makeAt] at h
      rw [hdestination]
      split at h
      · cases h
      · next hnone =>
          refine ⟨hnone, ⟨by simp, by simp [hnone], ?_⟩, (Except.ok.inj h).symm⟩
          rw [List.dropLast_concat, hhere]
          exact hopen.finish

namespace Extends

variable {larger largest : FileTree} {places more : List Location}

theorem refl (tree : FileTree) (places : List Location) : tree.Extends tree places :=
  ⟨rfl, id, fun _ => .inl rfl⟩

theorem trans (first : tree.Extends larger places) (second : larger.Extends largest places) :
    tree.Extends largest places := by
  refine ⟨second.workingDirectory.trans first.workingDirectory,
    second.parentClosed ∘ first.parentClosed, ?_⟩
  intro l
  rcases second.entry l with hsame | ⟨hnone, hdirectory, hmem⟩
  · rw [hsame]
    exact first.entry l
  · rcases first.entry l with hfirst | ⟨_, hthere, _⟩
    · exact .inr ⟨hfirst ▸ hnone, hdirectory, hmem⟩
    · rw [hnone] at hthere
      cases hthere

theorem mono (h : tree.Extends larger places) (hsubset : places ⊆ more) :
    tree.Extends larger more := by
  refine ⟨h.workingDirectory, h.parentClosed, ?_⟩
  intro l
  rcases h.entry l with hsame | ⟨hnone, hdirectory, hmem⟩
  · exact .inl hsame
  · exact .inr ⟨hnone, hdirectory, hsubset hmem⟩

/-- What is there stays there. -/
theorem get?_of_some (h : tree.Extends larger places) {l : Location} {entry : Entry}
    (hentry : tree.get? l = some entry) : larger.get? l = some entry := by
  rcases h.entry l with hsame | ⟨hnone, _⟩
  · rw [hsame, hentry]
  · rw [hentry] at hnone
    cases hnone

theorem origin (h : tree.Extends larger places) (path : Path) :
    larger.origin path = tree.origin path :=
  origin_eq h.workingDirectory path

theorem route (h : tree.Extends larger places) (path : Path) :
    larger.route path = tree.route path :=
  route_eq h.workingDirectory path

end Extends

/-- Making a directory adds directories on its route and nothing else. -/
theorem extends_of_makeDirectory {path : Path} {made : FileTree}
    (h : tree.makeDirectory path = .ok made) : tree.Extends made (tree.route path) := by
  obtain ⟨hnone, hvacant, rfl⟩ := makeDirectory_ok h
  refine ⟨rfl, fun hclosed => hclosed.set hvacant _, ?_⟩
  intro l
  rw [get?_set _ _ _ _ hvacant.ne_nil]
  split_ifs with hl
  · subst hl
    exact .inr ⟨hnone, rfl, mem_route_iff.mpr ⟨path.steps, List.prefix_rfl, rfl⟩⟩
  · exact .inl rfl

theorem route_subset_of_parent {path above : Path} (h : path.parent? = some above) :
    tree.route above ⊆ tree.route path := by
  obtain ⟨_, hsteps, habsolute⟩ := parent?_spec h
  have horigin : tree.origin above = tree.origin path := by
    unfold origin
    rw [habsolute]
  intro l hl
  obtain ⟨before, hbefore, rfl⟩ := mem_route_iff.mp hl
  rw [horigin]
  refine mem_route_iff.mpr ⟨before, hbefore.trans ?_, rfl⟩
  rw [hsteps]
  exact List.dropLast_prefix path.steps

/-- Directories are only made at places the path goes through. -/
theorem extends_makeDirectories (fuel : Nat) (path : Path) (tree : FileTree) :
    tree.Extends (makeDirectories fuel path tree).1 (tree.route path) := by
  induction fuel generalizing path tree with
  | zero => exact .refl tree _
  | succ fuel ih =>
      unfold makeDirectories
      split_ifs
      · exact .refl tree _
      · cases hmake : tree.makeDirectory path with
        | ok made => exact extends_of_makeDirectory hmake
        | error obstacle =>
            cases obstacle with
            | missing =>
                dsimp only
                cases hparent : path.parent? with
                | none => exact .refl tree _
                | some above =>
                    have habove := (ih above tree).mono (route_subset_of_parent hparent)
                    dsimp only
                    generalize makeDirectories fuel above tree = result at habove
                    obtain ⟨lower, ready⟩ := result
                    cases ready with
                    | false => exact habove
                    | true =>
                        dsimp only
                        cases hagain : lower.makeDirectory path with
                        | error obstacle => exact habove
                        | ok made =>
                            have hlast := extends_of_makeDirectory hagain
                            rw [habove.route] at hlast
                            exact habove.trans hlast
            | _ => exact .refl tree _

theorem isDirectory_of_open {path : Path} (htext : path.text ≠ "") (husable : path.isUsable = true)
    (hopen : tree.IsOpen (tree.origin path) path.steps) : tree.isDirectory path = true := by
  obtain ⟨hwalk, hdirectory⟩ := walk_directory_iff.mpr ⟨hopen, rfl⟩
  have hfind : tree.find path = .ok .directory := by
    unfold find locate
    simp only [String.isEmpty_iff, htext, if_false, husable, if_true, hwalk, bind, Except.bind,
      hdirectory]
    rfl
  unfold isDirectory
  rw [hfind]

theorem makeDirectory_ne_missing {path : Path} (htext : path.text ≠ "")
    (hopen : tree.IsOpen (tree.origin path) path.steps) :
    tree.makeDirectory path ≠ .error .missing := by
  rw [makeDirectory_eq]
  split_ifs with hempty husable hparts
  · exact absurd (String.isEmpty_iff.mp hempty) htext
  · simp
  · simp
  · have hlocate := locateLast_ne_missing (fun h => hparts (List.isEmpty_iff.mpr h))
      (filter_significantParts path ▸ hopen)
    cases hlast : tree.locateLast path (significantParts path) with
    | error obstacle =>
        rw [hlast] at hlocate
        simpa [bind, Except.bind] using hlocate
    | ok place =>
        simp only [bind, Except.bind, makeAt]
        split <;> simp

theorem makeDirectory_of_open {path : Path}
    (hopen : tree.IsOpen (tree.origin path) path.steps) :
    ∃ obstacle, tree.makeDirectory path = .error obstacle := by
  cases hmake : tree.makeDirectory path with
  | error obstacle => exact ⟨obstacle, rfl⟩
  | ok made =>
      obtain ⟨hnone, _⟩ := makeDirectory_ok hmake
      rw [destination, hopen.finish] at hnone
      cases hnone

/-- Where the way is open nothing has to be made. -/
theorem makeDirectories_of_open {path : Path} (husable : path.isUsable = true)
    (hopen : tree.IsOpen (tree.origin path) path.steps) (fuel : Nat) :
    makeDirectories (fuel + 1) path tree = (tree, true) := by
  unfold makeDirectories
  split_ifs with hempty
  · rfl
  · have htext : path.text ≠ "" := fun h => hempty (String.isEmpty_iff.mpr h)
    have hthere := isDirectory_of_open htext husable hopen
    obtain ⟨obstacle, hmake⟩ := makeDirectory_of_open hopen
    rw [hmake]
    cases obstacle with
    | missing => exact absurd hmake (makeDirectory_ne_missing htext hopen)
    | _ => simp [hthere]

end Making

theorem isUsable_of_isPrefix {short long : Path} (h : short.text.toList <+: long.text.toList)
    (husable : long.isUsable = true) : short.isUsable = true := by
  obtain ⟨rest, hrest⟩ := h
  have htext : long.text = short.text ++ String.ofList rest := by
    rw [← String.toList_inj, String.toList_append, String.toList_ofList, hrest]
  unfold isUsable at husable ⊢
  rw [htext, String.utf8ByteSize_append, String.toList_append] at husable
  simp only [Bool.and_eq_true, decide_eq_true_eq, Bool.not_eq_true', List.contains_eq_mem,
    decide_eq_false_iff_not, List.mem_append, not_or] at husable ⊢
  exact ⟨by omega, husable.2.1⟩

/-- A shorter name makes no path unusable. -/
theorem isUsable_join {name other : String} (hname : IsPlain name) (hother : IsPlain other)
    (hlength : other.utf8ByteSize ≤ name.utf8ByteSize) (hchars : '\x00' ∉ other.toList)
    {base : Path} (husable : (base.join ⟨name⟩).isUsable = true) :
    (base.join ⟨other⟩).isUsable = true := by
  obtain ⟨front, htext, _⟩ := base.exists_join
  have hsplit : ∀ n, IsPlain n → (base.join ⟨n⟩).text = String.ofList front ++ n := by
    intro n hn
    rw [← String.toList_inj, htext n hn, String.toList_append, String.toList_ofList]
  unfold isUsable at husable ⊢
  rw [hsplit name hname, String.utf8ByteSize_append, String.toList_append] at husable
  rw [hsplit other hother, String.utf8ByteSize_append, String.toList_append]
  simp only [Bool.and_eq_true, decide_eq_true_eq, Bool.not_eq_true', List.contains_eq_mem,
    decide_eq_false_iff_not, List.mem_append, not_or] at husable ⊢
  exact ⟨by omega, husable.2.1, hchars⟩

section Writing

variable {tree : FileTree} {base : Path} {name : String}

theorem origin_join (h : IsPlain name) (tree : FileTree) (base : Path) :
    tree.origin (base.join ⟨name⟩) = tree.origin base := by
  unfold origin
  rw [isAbsolute_join h]

theorem join_ne_empty (h : IsPlain name) (base : Path) : (base.join ⟨name⟩).text ≠ "" := by
  obtain ⟨front, htext, _⟩ := base.exists_join
  intro hempty
  have hnil := htext name h
  rw [hempty] at hnil
  obtain ⟨_, hname⟩ := List.append_eq_nil_iff.mp hnil.symm
  have hstep := h.2.1
  rw [String.toList_eq_nil_iff.mp hname] at hstep
  cases hstep

theorem writeText_eq (tree : FileTree) (path : Path) (text : String) :
    tree.writeText path text =
      if path.text.isEmpty then .error .missing
      else if !path.isUsable then .error .unusable
      else
        tree.locateLast path path.parts >>= fun place =>
          match tree.get? (place.1 ++ [place.2]) with
          | some .directory => .error .isDirectory
          | _ => .ok (tree.set (place.1 ++ [place.2]) (.file (.text text))) := by
  unfold writeText
  split_ifs <;> rfl

/-- A file can be written exactly if the way to its directory is open and it is no
directory itself. -/
theorem writeText_join_ok_iff (h : IsPlain name) (hname : isUsableName name = true)
    (text : String) (written : FileTree) :
    tree.writeText (base.join ⟨name⟩) text = .ok written ↔
      (base.join ⟨name⟩).isUsable = true ∧ tree.IsOpen (tree.origin base) base.steps ∧
        tree.get? (tree.destination base ++ [name]) ≠ some .directory ∧
        written = tree.set (tree.destination base ++ [name]) (.file (.text text)) := by
  obtain ⟨front, hparts, hfront⟩ := parts_join h base
  have hempty : ¬ (base.join ⟨name⟩).text.isEmpty = true := fun hempty =>
    join_ne_empty h base (String.isEmpty_iff.mp hempty)
  have horigin := origin_join h tree base
  rw [writeText_eq, if_neg hempty, hparts]
  constructor
  · intro hwrite
    split_ifs at hwrite with husable
    cases hlocate : tree.locateLast (base.join ⟨name⟩) (front ++ [name]) with
    | error obstacle =>
        rw [hlocate] at hwrite
        cases hwrite
    | ok place =>
        obtain ⟨here, last⟩ := place
        obtain ⟨before, hbefore, hopen, hhere, _⟩ := locateLast_ok hlocate
        obtain ⟨rfl, hlast⟩ := List.append_inj' hbefore rfl
        obtain rfl : name = last := by simpa using hlast
        rw [hfront, horigin] at hopen hhere
        simp only [hlocate, bind, Except.bind] at hwrite
        rw [destination, ← hhere]
        split at hwrite
        · cases hwrite
        · next hother =>
            exact ⟨by simpa using husable, hopen, hother, (Except.ok.inj hwrite).symm⟩
  · rintro ⟨husable, hopen, hother, rfl⟩
    have hplain : ¬ ((name = "" || name = "." || name = "..") = true) := by
      have hstep := h.2.1
      simp only [isStep, Bool.and_eq_true, decide_eq_true_eq] at hstep
      simp [hstep, h.2.2]
    rw [if_neg (by simp [husable]),
      locateLast_of_open (by rw [hfront, horigin]; exact hopen), if_neg hplain, if_pos hname,
      hfront, horigin]
    simp only [bind, Except.bind]
    unfold destination at hother ⊢
    split
    · next hdirectory => exact absurd hdirectory hother
    · rfl

/-- A plain name under an open base is found right in it. -/
theorem locate_join (h : IsPlain name) (hname : isUsableName name = true)
    (husable : (base.join ⟨name⟩).isUsable = true)
    (hopen : tree.IsOpen (tree.origin base) base.steps) :
    tree.locate (base.join ⟨name⟩) = .ok (tree.destination base ++ [name]) := by
  obtain ⟨front, hparts, hfront⟩ := parts_join h base
  have hempty : ¬ (base.join ⟨name⟩).text.isEmpty = true := fun hempty =>
    join_ne_empty h base (String.isEmpty_iff.mp hempty)
  obtain ⟨hwalk, hdirectory⟩ := walk_directory_iff.mpr ⟨hfront ▸ hopen, rfl⟩
  have hlast :
      tree.walk (tree.destination base) [name] = .ok (tree.destination base ++ [name]) := by
    have hstep := h.2.1
    simp only [isStep, Bool.and_eq_true, decide_eq_true_eq] at hstep
    rw [hfront] at hdirectory
    unfold destination
    simp [walk, hdirectory, hstep, h.2.2, hname]
  unfold locate
  rw [if_neg hempty, if_pos husable, origin_join h, hparts, walk_append, hwalk, hfront]
  exact hlast

theorem exists?_join (h : IsPlain name) (hname : isUsableName name = true)
    (husable : (base.join ⟨name⟩).isUsable = true)
    (hopen : tree.IsOpen (tree.origin base) base.steps) :
    tree.exists? (base.join ⟨name⟩) = (tree.get? (tree.destination base ++ [name])).isSome := by
  unfold exists? find
  rw [locate_join h hname husable hopen]
  simp only [bind, Except.bind]
  cases tree.get? (tree.destination base ++ [name]) <;> rfl

theorem parent_join (h : IsPlain name) {above : Path}
    (hparent : (base.join ⟨name⟩).parent? = some above) (tree : FileTree) :
    above.steps = base.steps ∧ tree.origin above = tree.origin base ∧
      ∀ l, l ∈ tree.route above ↔ l ∈ tree.route base := by
  obtain ⟨_, hsteps, habsolute⟩ := parent?_spec hparent
  rw [steps_join h, List.dropLast_concat] at hsteps
  have horigin : tree.origin above = tree.origin base := by
    unfold origin
    rw [habsolute, isAbsolute_join h]
  refine ⟨hsteps, horigin, ?_⟩
  intro l
  rw [mem_route_iff, mem_route_iff, hsteps, horigin]

/-- Storing makes the directories of the base as far as it can, and then writes. -/
theorem store_eq (h : IsPlain name) (tree : FileTree) (base : Path) (text : String) :
    ∃ (made : FileTree) (ready : Bool), tree.Extends made (tree.route base) ∧
      tree.store (base.join ⟨name⟩) text =
        if ready then
          match made.writeText (base.join ⟨name⟩) text with
          | .ok written => (written, true)
          | .error _ => (made, false)
        else (made, false) := by
  unfold store
  cases hparent : (base.join ⟨name⟩).parent? with
  | none => exact ⟨tree, true, .refl tree _, rfl⟩
  | some above =>
      have hextends := extends_makeDirectories (above.text.length + 1) above tree
      obtain ⟨_, _, hroute⟩ := parent_join h hparent tree
      exact ⟨_, _, hextends.mono fun l => (hroute l).mp, rfl⟩

/-- Writing a file makes directories on the way and then, if it succeeds, puts the file
into its place. -/
theorem store_join (h : IsPlain name) (hname : isUsableName name = true) (tree : FileTree)
    (base : Path) (text : String) :
    ∃ made, tree.Extends made (tree.route base) ∧
      (tree.store (base.join ⟨name⟩) text = (made, false) ∨
        (base.join ⟨name⟩).isUsable = true ∧ made.IsOpen (made.origin base) base.steps ∧
        made.get? (made.destination base ++ [name]) ≠ some .directory ∧
        tree.store (base.join ⟨name⟩) text =
          (made.set (made.destination base ++ [name]) (.file (.text text)), true)) := by
  obtain ⟨made, ready, hextends, hstore⟩ := store_eq h tree base text
  refine ⟨made, hextends, ?_⟩
  rw [hstore]
  cases ready with
  | false => exact .inl rfl
  | true =>
      cases hwrite : made.writeText (base.join ⟨name⟩) text with
      | error obstacle => exact .inl rfl
      | ok written =>
          obtain ⟨husable, hopen, hother, rfl⟩ := (writeText_join_ok_iff h hname _ _).mp hwrite
          exact .inr ⟨husable, hopen, hother, rfl⟩

/-- In a directory that is there a file is written without further ado. -/
theorem store_join_of_open (h : IsPlain name) (hname : isUsableName name = true)
    (husable : (base.join ⟨name⟩).isUsable = true)
    (hopen : tree.IsOpen (tree.origin base) base.steps)
    (hother : tree.get? (tree.destination base ++ [name]) ≠ some .directory) (text : String) :
    tree.store (base.join ⟨name⟩) text =
      (tree.set (tree.destination base ++ [name]) (.file (.text text)), true) := by
  have hwrite := (writeText_join_ok_iff h hname text _).mpr ⟨husable, hopen, hother, rfl⟩
  unfold store
  cases hparent : (base.join ⟨name⟩).parent? with
  | none => simp [hwrite]
  | some above =>
      obtain ⟨hsteps, horigin, _⟩ := parent_join h hparent tree
      have hmake := makeDirectories_of_open
        (isUsable_of_isPrefix (parent?_spec hparent).1 husable)
        (by rw [hsteps, horigin]; exact hopen) above.text.length
      simp [hmake, hwrite]

end Writing

end FileTree

end GioForge
