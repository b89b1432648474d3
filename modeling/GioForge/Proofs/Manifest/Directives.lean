import GioForge.Manifest
import Mathlib.Tactic.Common

/-!
Reading a manifest back. A manifest is read line by line: a line that begins with a word and
a blank is a directive with this word and, as its value, the rest of the line. Settings go into
the manifest as they are, so they are read back exactly if no setting has a line feed in it. A
setting with a line feed can bring directives of its own, and then different settings may
have the same manifest.
-/

namespace GioForge

namespace Manifest

/-- The first word of a line, and what stands behind the blank after it. -/
def firstWord? (line : List Char) : Option (String × String) :=
  match line.dropWhile (· != ' ') with
  | [] => none
  | _ :: rest => some (String.ofList (line.takeWhile (· != ' ')), String.ofList rest)

/-- The directives of a manifest, line by line, with their values. -/
def directives (manifest : String) : List (String × String) :=
  (manifest.toList.splitOn '\n').filterMap firstWord?

def valuesOf (word : String) (directives : List (String × String)) : List String :=
  directives.filterMap fun directive => if directive.1 = word then some directive.2 else none

def modulePaths (manifest : String) : List String :=
  valuesOf "module" (directives manifest)

def goVersions (manifest : String) : List String :=
  valuesOf "go" (directives manifest)

/-- The packages that a manifest requires directly, each on a line of its own, with their
versions. -/
def requirements (manifest : String) : List (String × String) :=
  (valuesOf "require" (directives manifest)).filterMap fun value => firstWord? value.toList

/-- The manifest says once what each of the settings is. -/
def States (manifest : String) (settings : GoSettings) : Prop :=
  modulePaths manifest = [settings.module] ∧ goVersions manifest = [settings.goVersion] ∧
    requirements manifest = [("gioui.org", settings.gioVersion)]

theorem firstWord?_append {word : List Char} (h : ' ' ∉ word) (rest : List Char) :
    firstWord? (word ++ ' ' :: rest) = some (String.ofList word, String.ofList rest) := by
  have hword : ∀ c ∈ word, (c != ' ') = true := by
    intro c hc
    rw [bne_iff_ne]
    rintro rfl
    exact h hc
  unfold firstWord?
  rw [List.dropWhile_append_of_pos hword, List.takeWhile_append_of_pos hword]
  simp

theorem line_feed_not_mem_of_mem_splitOn {cs line : List Char} (h : line ∈ cs.splitOn '\n') :
    '\n' ∉ line := by
  induction cs generalizing line with
  | nil =>
      rw [List.splitOn_nil, List.mem_singleton] at h
      simp [h]
  | cons c rest ih =>
      rw [List.splitOn_cons_eq_if_modifyHead] at h
      split at h
      · rcases List.mem_cons.mp h with rfl | hrest
        · simp
        · exact ih hrest
      · next hc =>
          obtain ⟨first, others, hsplit⟩ :=
            List.exists_cons_of_ne_nil (List.splitOn_ne_nil '\n' rest)
          rw [hsplit, List.modifyHead_cons] at h
          have hfirst := ih (hsplit ▸ List.mem_cons_self)
          rcases List.mem_cons.mp h with rfl | hothers
          · simpa [Ne.symm (by simpa using hc : c ≠ '\n')] using hfirst
          · exact ih (hsplit ▸ List.mem_cons_of_mem _ hothers)

theorem line_feed_not_mem_of_firstWord? {line : List Char} {word value : String}
    (h : firstWord? line = some (word, value)) (hline : '\n' ∉ line) :
    '\n' ∉ value.toList := by
  unfold firstWord? at h
  split at h
  · cases h
  · next c rest hdrop =>
      obtain ⟨_, rfl⟩ := Prod.mk.inj (Option.some.inj h)
      rw [String.toList_ofList]
      intro hmem
      apply hline
      apply (List.dropWhile_suffix (· != ' ')).subset
      rw [hdrop]
      exact List.mem_cons_of_mem _ hmem

theorem mem_valuesOf {word value : String} {directives : List (String × String)} :
    value ∈ valuesOf word directives ↔ (word, value) ∈ directives := by
  simp [valuesOf]

theorem valuesOf_cons (word : String) (directive : String × String)
    (rest : List (String × String)) :
    valuesOf word (directive :: rest) =
      if directive.1 = word then directive.2 :: valuesOf word rest else valuesOf word rest := by
  unfold valuesOf
  split
  · next h => simp [h]
  · next h => simp [h]

/-- The value of a directive is part of one line. -/
theorem line_feed_not_mem_of_mem_directives {manifest word value : String}
    (h : (word, value) ∈ directives manifest) : '\n' ∉ value.toList := by
  obtain ⟨line, hline, hword⟩ := List.mem_filterMap.mp h
  exact line_feed_not_mem_of_firstWord? hword (line_feed_not_mem_of_mem_splitOn hline)

/-- One line with a word and a value is one directive. -/
theorem directives_line (word value rest : String)
    (hblank : ' ' ∉ word.toList) (hword : '\n' ∉ word.toList) (hvalue : '\n' ∉ value.toList) :
    directives (word ++ (" " ++ (value ++ ("\n" ++ rest)))) = (word, value) :: directives rest := by
  have hline : '\n' ∉ word.toList ++ ' ' :: value.toList := by
    simp [hword, hvalue]
  have htext : (word ++ (" " ++ (value ++ ("\n" ++ rest)))).toList =
      (word.toList ++ ' ' :: value.toList) ++ '\n' :: rest.toList := by
    simp
  unfold directives
  rw [htext, List.splitOn_append_cons_self_of_not_mem hline, List.filterMap_cons,
    firstWord?_append hblank]
  simp

theorem directives_blank_line (rest : String) : directives ("\n" ++ rest) = directives rest := by
  have htext : ("\n" ++ rest).toList = [] ++ '\n' :: rest.toList := by
    simp
  unfold directives
  rw [htext, List.splitOn_append_cons_self_of_not_mem List.not_mem_nil, List.filterMap_cons]
  rfl

/-- The lines of the block of indirect requirements, read as directives. -/
def indirectDirectives (gioVersion : String) : List (String × String) :=
  if gioVersion = pinnedVersion then
    ("require", "(") :: pinnedRequirements.map fun r => ("\t" ++ r.1, r.2 ++ " // indirect")
  else []

theorem directives_requirements {listed : List (String × String)}
    (h : ∀ r ∈ listed, ' ' ∉ r.1.toList ∧ '\n' ∉ r.1.toList ∧ '\n' ∉ r.2.toList)
    (rest : String) :
    directives (String.join
        (listed.map fun r => "\t" ++ r.1 ++ " " ++ r.2 ++ " // indirect\n") ++ rest) =
      (listed.map fun r => ("\t" ++ r.1, r.2 ++ " // indirect")) ++ directives rest := by
  have hend : " // indirect\n" = " // indirect" ++ "\n" := rfl
  induction listed with
  | nil => simp [String.join]
  | cons r others ih =>
      obtain ⟨hblank, hword, hvalue⟩ := h r (by simp)
      have hline := directives_line ("\t" ++ r.1) (r.2 ++ " // indirect")
        (String.join (others.map fun r => "\t" ++ r.1 ++ " " ++ r.2 ++ " // indirect\n") ++ rest)
        (by simp [hblank]) (by simp [hword]) (by simp [hvalue])
      rw [ih fun other hother => h other (by simp [hother])] at hline
      rw [List.map_cons, List.map_cons, List.cons_append, ← hline, String.join_cons, hend]
      simp only [String.append_assoc]

theorem directives_indirectBlock (gioVersion : String) :
    directives (indirectBlock gioVersion) = indirectDirectives gioVersion := by
  unfold indirectBlock indirectDirectives
  split
  · have hopen : ∀ block : String, "\nrequire (\n" ++ block ++ ")\n" =
        "\n" ++ ("require" ++ (" " ++ ("(" ++ ("\n" ++ (block ++ ")\n"))))) := by
      intro block
      have hstart : "\nrequire (\n" = "\n" ++ ("require" ++ (" " ++ ("(" ++ "\n"))) := rfl
      rw [hstart]
      simp only [String.append_assoc]
    have hpinned : ∀ r ∈ pinnedRequirements,
        ' ' ∉ r.1.toList ∧ '\n' ∉ r.1.toList ∧ '\n' ∉ r.2.toList := by
      decide
    have hclose : directives ")\n" = [] := by
      decide
    rw [hopen, directives_blank_line,
      directives_line "require" "(" _ (by decide) (by decide) (by decide),
      directives_requirements hpinned, hclose, List.append_nil]
  · rfl

/-- A manifest with each word and each line feed apart. -/
theorem render_eq (settings : GoSettings) :
    render settings =
      "module" ++ (" " ++ (settings.module ++ ("\n" ++ ("\n" ++
        ("go" ++ (" " ++ (settings.goVersion ++ ("\n" ++ ("\n" ++
          ("require" ++ (" " ++ ("gioui.org " ++ settings.gioVersion ++ ("\n" ++
            indirectBlock settings.gioVersion))))))))))))) := by
  have hmodule : "module " = "module" ++ " " := rfl
  have hgo : "\n\ngo " = "\n" ++ ("\n" ++ ("go" ++ " ")) := rfl
  have hrequire : "\n\nrequire gioui.org " =
      "\n" ++ ("\n" ++ ("require" ++ (" " ++ "gioui.org "))) := rfl
  unfold render
  rw [hmodule, hgo, hrequire]
  simp only [String.append_assoc]

end Manifest

/-- No setting has a line feed in it. -/
def GoSettings.OnOneLine (settings : GoSettings) : Prop :=
  '\n' ∉ settings.module.toList ∧ '\n' ∉ settings.goVersion.toList ∧
    '\n' ∉ settings.gioVersion.toList

instance (settings : GoSettings) : Decidable settings.OnOneLine :=
  inferInstanceAs (Decidable (_ ∧ _ ∧ _))

namespace Manifest

/-- The directives of a manifest are the three that state the settings, and those of the
block. -/
theorem directives_render {settings : GoSettings} (h : settings.OnOneLine) :
    directives (render settings) =
      ("module", settings.module) :: ("go", settings.goVersion) ::
        ("require", "gioui.org " ++ settings.gioVersion) ::
          indirectDirectives settings.gioVersion := by
  obtain ⟨hmodule, hgo, hgio⟩ := h
  have hrequirement : '\n' ∉ ("gioui.org " ++ settings.gioVersion).toList := by
    simp [hgio]
  rw [render_eq, directives_line "module" _ _ (by decide) (by decide) hmodule,
    directives_blank_line, directives_line "go" _ _ (by decide) (by decide) hgo,
    directives_blank_line, directives_line "require" _ _ (by decide) (by decide) hrequirement,
    directives_indirectBlock]

/-- The directives of the block state none of the settings. -/
theorem valuesOf_indirectDirectives (gioVersion : String) :
    valuesOf "module" (indirectDirectives gioVersion) = [] ∧
      valuesOf "go" (indirectDirectives gioVersion) = [] ∧
      (valuesOf "require" (indirectDirectives gioVersion)).filterMap
        (fun value => firstWord? value.toList) = [] := by
  unfold indirectDirectives
  split
  · decide +kernel
  · exact ⟨rfl, rfl, rfl⟩

theorem firstWord?_requirement (gioVersion : String) :
    firstWord? ("gioui.org " ++ gioVersion).toList = some ("gioui.org", gioVersion) := by
  have htext : ("gioui.org " ++ gioVersion).toList =
      "gioui.org".toList ++ ' ' :: gioVersion.toList := by
    simp
  rw [htext, firstWord?_append (by decide)]
  simp

/-- Settings without line feeds are what their manifest says. -/
theorem states_render {settings : GoSettings} (h : settings.OnOneLine) :
    States (render settings) settings := by
  obtain ⟨hmodule, hgo, hrequire⟩ := valuesOf_indirectDirectives settings.gioVersion
  unfold States modulePaths goVersions requirements
  rw [directives_render h]
  refine ⟨?_, ?_, ?_⟩
  · simp [valuesOf_cons, hmodule]
  · simp [valuesOf_cons, hgo]
  · simp only [valuesOf_cons, String.reduceEq, if_false, if_true, List.filterMap_cons,
      firstWord?_requirement, hrequire]

/-- What a manifest says has no line feed in it. -/
theorem States.onOneLine {manifest : String} {settings : GoSettings}
    (h : States manifest settings) : settings.OnOneLine := by
  obtain ⟨hmodule, hgo, hrequire⟩ := h
  have hmodule : settings.module ∈ modulePaths manifest := by simp [hmodule]
  have hgo : settings.goVersion ∈ goVersions manifest := by simp [hgo]
  have hrequire : ("gioui.org", settings.gioVersion) ∈ requirements manifest := by simp [hrequire]
  obtain ⟨value, hvalue, hword⟩ := List.mem_filterMap.mp hrequire
  have hline := line_feed_not_mem_of_mem_directives (mem_valuesOf.mp hvalue)
  exact ⟨line_feed_not_mem_of_mem_directives (mem_valuesOf.mp hmodule),
    line_feed_not_mem_of_mem_directives (mem_valuesOf.mp hgo),
    line_feed_not_mem_of_firstWord? hword hline⟩

/-- A manifest states one set of settings at most. -/
theorem States.unique {manifest : String} {settings other : GoSettings}
    (h : States manifest settings) (hother : States manifest other) : other = settings := by
  obtain ⟨hmodule, hgo, hrequire⟩ := h
  obtain ⟨hmodule', hgo', hrequire'⟩ := hother
  have hsame : other.module = settings.module := by simpa [hmodule] using hmodule'.symm
  have hsameGo : other.goVersion = settings.goVersion := by simpa [hgo] using hgo'.symm
  have hsameGio : other.gioVersion = settings.gioVersion := by simpa [hrequire] using hrequire'.symm
  cases settings
  cases other
  simp_all

/-- Settings are read back from their manifest exactly if none of them has a line feed in it.
In that case the manifest has no other directives than the three that state the settings and
those of the block of indirect requirements, and no other such settings have the same
manifest. -/
theorem settings_are_read_back (settings : GoSettings) :
    (settings.OnOneLine ↔ States (render settings) settings) ∧
    (settings.OnOneLine →
      directives (render settings) =
        [("module", settings.module), ("go", settings.goVersion),
          ("require", "gioui.org " ++ settings.gioVersion)] ++
            indirectDirectives settings.gioVersion) ∧
    (settings.OnOneLine → ∀ other : GoSettings, other.OnOneLine →
      (render other = render settings ↔ other = settings)) := by
  refine ⟨⟨states_render, States.onOneLine⟩, directives_render, ?_⟩
  intro h other hother
  constructor
  · intro heq
    have hstates := states_render hother
    rw [heq] at hstates
    exact (states_render h).unique hstates
  · rintro rfl
    rfl

/-- Settings that look like directives. -/
theorem settings_are_read_back_lookalike :
    let settings : GoSettings :=
      { module := "m go 1.1", goVersion := "1.0 module n", gioVersion := "require gioui.org v2" }
    settings.OnOneLine ∧
      modulePaths (render settings) = ["m go 1.1"] ∧
      goVersions (render settings) = ["1.0 module n"] ∧
      requirements (render settings) = [("gioui.org", "require gioui.org v2")] ∧
      render {} ≠ render settings := by
  intro settings
  have h : settings.OnOneLine := by decide
  obtain ⟨hiff, _, hunique⟩ := settings_are_read_back settings
  obtain ⟨hmodule, hgo, hrequire⟩ := hiff.mp h
  refine ⟨h, hmodule, hgo, hrequire, ?_⟩
  intro heq
  have hsame := (hunique h {} (by decide)).mp heq
  exact absurd hsame (by decide)

/-- A line feed in a setting brings a second directive, and with line feeds a directive can
come from one setting or from another. -/
theorem line_feed_adds_directive :
    goVersions (render { module := "m\ngo 1.0", gioVersion := "v0.8.0" }) = ["1.0", "1.24.9"] ∧
      render { module := "m\n\ngo 1.0", goVersion := "1.1" } =
        render { module := "m", goVersion := "1.0\n\ngo 1.1" } := by
  constructor
  · decide +kernel
  · rfl

end Manifest

end GioForge
