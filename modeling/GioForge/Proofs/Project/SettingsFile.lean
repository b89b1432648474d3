import GioForge.Project
import GioForge.Proofs.FileTree.Storing
import GioForge.Text.Lines

/-!
Projects with and without a settings file. A text of comments and white space holds no
settings, so all are the defaults; but they are then still taken from the directory of the
file, which they are not if there is no file. The two agree exactly if the path of the file
is a bare name.
-/

namespace GioForge

namespace Toml

/-- A line of white space, or a comment with white space in front of it. -/
def isCommentLine (line : List Char) : Bool :=
  match skipGaps line with
  | [] => true
  | c :: text => c == '#' && text.all isPrintable

theorem isCommentLine_cons (c : Char) (line : List Char) :
    isCommentLine (c :: line) =
      if isGap c then isCommentLine line else c == '#' && line.all isPrintable := by
  cases hgap : isGap c <;> simp [isCommentLine, skipGaps, hgap]

/-- Lines with nothing but comments, of which the first may have been read up to the middle
of its comment. -/
def OnlyComments (inComment : Bool) (lines : List (List Char)) : Prop :=
  (if inComment then (lines.headD []).all isPrintable else isCommentLine (lines.headD [])) = true ∧
    ∀ line ∈ lines.tail, isCommentLine line = true

theorem onlyComments_of_forall {lines : List (List Char)}
    (h : ∀ line ∈ lines, isCommentLine line = true) : OnlyComments false lines := by
  cases lines with
  | nil => exact ⟨rfl, by simp⟩
  | cons first others =>
      exact ⟨h first List.mem_cons_self, fun line hline => h line (List.mem_cons_of_mem _ hline)⟩

/-- A character that ends no line is the first of its line. -/
theorem lines_cons {c : Char} {rest : List Char} (hfeed : c = '\n' → False)
    (hreturn : ∀ more, c = '\r' → rest = '\n' :: more → False) :
    Text.lines (c :: rest) =
      (c :: (Text.lines rest).headD []) :: (Text.lines rest).tail := by
  rw [Text.lines.eq_4 c rest hfeed hreturn]
  cases Text.lines rest <;> rfl

/-- A character that ends no line is skipped within a comment, or as a blank before one. -/
theorem skipTrivia_cons {inComment : Bool} {c : Char} {rest : List Char}
    (hfeed : c = '\n' → False) (hreturn : ∀ more, c = '\r' → rest = '\n' :: more → False)
    (hrest : ∀ inside, OnlyComments inside (Text.lines rest) →
      skipTrivia inside rest = some [])
    (h : OnlyComments inComment (Text.lines (c :: rest))) :
    skipTrivia inComment (c :: rest) = some [] := by
  rw [lines_cons hfeed hreturn] at h
  obtain ⟨hfirst, hothers⟩ := h
  rw [skipTrivia.eq_4 inComment c rest hfeed hreturn]
  cases inComment with
  | true =>
      obtain ⟨hc, hline⟩ : isPrintable c = true ∧
          ((Text.lines rest).headD []).all isPrintable = true := by
        simpa using hfirst
      rw [if_pos rfl, if_pos hc]
      exact hrest true ⟨hline, hothers⟩
  | false =>
      have hline : isCommentLine (c :: (Text.lines rest).headD []) = true := hfirst
      rw [isCommentLine_cons] at hline
      rw [if_neg Bool.false_ne_true]
      split_ifs at hline ⊢ with hgap hsign
      · exact hrest false ⟨hline, hothers⟩
      · simp only [Bool.and_eq_true] at hline
        exact hrest true ⟨hline.2, hothers⟩
      · simp [hsign] at hline

/-- A text with nothing but comments has nothing in it to read. -/
theorem skipTrivia_of_onlyComments {inComment : Bool} {cs : List Char}
    (h : OnlyComments inComment (Text.lines cs)) : skipTrivia inComment cs = some [] := by
  induction cs using Text.lines.induct generalizing inComment with
  | case1 => rfl
  | case2 rest ih =>
      have hrest : ∀ line ∈ Text.lines rest, isCommentLine line = true := h.2
      exact ih (onlyComments_of_forall hrest)
  | case3 rest ih =>
      have hrest : ∀ line ∈ Text.lines rest, isCommentLine line = true := h.2
      exact ih (onlyComments_of_forall hrest)
  | case4 c rest hfeed hreturn _ ih => exact skipTrivia_cons hfeed hreturn (fun _ => ih) h
  | case5 c rest hfeed hreturn _ _ _ ih => exact skipTrivia_cons hfeed hreturn (fun _ => ih) h

/-- A file with comments only is an empty table. -/
theorem read?_of_comments {text : String}
    (h : ∀ line ∈ Text.lines text.toList, isCommentLine line = true) :
    read? text = some (.object 0 [] none) := by
  have htrivia := skipTrivia_of_onlyComments (onlyComments_of_forall h)
  have hmark : dropByteOrderMark text.toList = text.toList := by
    unfold dropByteOrderMark
    split
    · next rest htext =>
        -- A line that begins with a byte order mark is no comment.
        rw [htext, lines_cons (by decide) (fun _ hc _ => absurd hc (by decide))] at h
        cases h _ List.mem_cons_self
    · rfl
  unfold read?
  simp only [hmark, statements, htrivia]
  rfl

end Toml

/-- A way that does not end at a directory ends with a step. -/
theorem FileTree.endsInStep_of_walk {tree : FileTree} {here l : Location} {front : List String}
    {last : String} (h : tree.walk here (front ++ [last]) = .ok l)
    (hl : tree.get? l ≠ some .directory) : Path.isStep last = true := by
  rw [walk_append] at h
  cases hfront : tree.walk here front with
  | error e => simp [hfront, bind, Except.bind] at h
  | ok before =>
      rw [hfront] at h
      have hlast : tree.walk before [last] = .ok l := h
      by_cases hbefore : tree.get? before = some .directory
      · rw [walk_cons hbefore] at hlast
        by_contra hstep
        rw [if_neg hstep] at hlast
        obtain rfl : before = l := Except.ok.inj hlast
        exact hl hbefore
      · rw [walk_of_not_directory hbefore] at hlast
        cases hlast

theorem FileTree.find_of_readText? {tree : FileTree} {path : Path} {text : String}
    (h : tree.readText? path = some text) : tree.find path = .ok (.file (.text text)) := by
  unfold readText? at h
  split at h
  · next content hfind => rw [hfind, Option.some.inj h]
  · cases h

/-- A path that leads to a file ends in the name of the file. -/
theorem FileTree.endsInStep_of_readText? {tree : FileTree} {path : Path} {text : String}
    (h : tree.readText? path = some text) : path.EndsInStep := by
  obtain ⟨front, last, hparts⟩ := List.eq_nil_or_concat' path.parts |>.resolve_left (by
    simp [Path.parts, Path.splitSlash_ne_nil])
  refine ⟨front, last, hparts, ?_⟩
  have hfind := find_of_readText? h
  unfold find at hfind
  cases hlocate : tree.locate path with
  | error e => simp [hlocate, bind, Except.bind] at hfind
  | ok l =>
      simp only [hlocate, bind, Except.bind] at hfind
      have hentry : tree.get? l = some (.file (.text text)) := by
        split at hfind
        · next entry hentry => rw [hentry, Except.ok.inj hfind]
        · cases hfind
      unfold locate at hlocate
      split_ifs at hlocate
      rw [hparts] at hlocate
      exact endsInStep_of_walk hlocate (by simp [hentry])

namespace Path

theorem rootLength_of_not_isStep {first : List Char} (h : isStep (String.ofList first) ≠ true)
    (rest : List Char) : rootLength (first ++ '/' :: rest) = 1 := by
  rw [ne_eq, isStep_ofList_iff, not_not] at h
  rcases h with rfl | rfl
  · rfl
  · rfl

/-- A path with nothing in front of its last step has no root in front of it either. -/
theorem rootLength_eq_zero {path : Path} (hsteps : path.steps ≠ [])
    (h : path.parent? = some ⟨""⟩) : rootLength path.text.toList = 0 := by
  obtain ⟨⟨front, name⟩, hsplit, hfront⟩ := Option.map_eq_some_iff.mp h
  obtain rfl : front = [] := by
    have htext := congrArg (fun p => p.text.toList) hfront
    simpa using htext
  obtain ⟨_, _, hnone⟩ | ⟨trimmed, htrimmed, _, _, _, _, hempty⟩ := splitLast?_cases hsplit
  · exact absurd hnone hsteps
  · have hrooted := (htrimmed.cutLast.trimDots (path.text.toList.length + 1)).1
    rw [← hempty] at hrooted
    generalize rootLength path.text.toList = root at hrooted
    cases hrooted
    rfl

theorem splitLast?_of_not_mem {cs front name : List Char} (h : splitLast? cs = some (front, name))
    (hslash : '/' ∉ cs) : front = [] := by
  obtain ⟨_, rfl, _⟩ | ⟨trimmed, htrimmed, hstart, _, hlength, _, rfl⟩ := splitLast?_cases h
  · rfl
  · have htrimmedSlash : '/' ∉ trimmed := fun hmem => hslash (hstart.subset hmem)
    generalize rootLength cs = root at htrimmed hlength ⊢
    have hroot : root = 0 := by
      cases htrimmed with
      | relative => rfl
      | absolute rest => simp at htrimmedSlash
      | dot => simp at hlength
      | dotted rest => simp at htrimmedSlash
    subst hroot
    have hcut : (cutLast 0 trimmed).1 = [] := by
      obtain ⟨middle, _, hmiddle⟩ | ⟨hfront, _⟩ := (cutLast_spec 0 trimmed).2
      · rw [hmiddle] at htrimmedSlash
        simp at htrimmedSlash
      · simpa using hfront
    rw [hcut]
    exact List.prefix_nil.mp (trimDots_isPrefix 0 _ [])

/-- A file lies in the directory of the empty path exactly if its path is a bare name. -/
theorem parent?_eq_empty_iff {path : Path} (hends : path.EndsInStep) :
    path.parent?.getD ⟨""⟩ = ⟨""⟩ ↔ '/' ∉ path.text.toList := by
  obtain ⟨front, name, hparts, hname⟩ := hends
  have hsteps : path.steps = front.filter isStep ++ [name] := by
    rw [steps, hparts, List.filter_append, List.filter_cons_of_pos hname, List.filter_nil]
  obtain ⟨above, habove⟩ := exists_parent? (p := path) (by simp [hsteps])
  rw [habove, Option.getD_some]
  constructor
  · rintro rfl
    have hroot := rootLength_eq_zero (by simp [hsteps]) habove
    have hfront : front.filter isStep = [] := by
      have hdrop := (parent?_spec habove).2.1
      rw [hsteps, List.dropLast_concat] at hdrop
      exact hdrop.symm
    intro hslash
    obtain ⟨first, rest, htext, hfirst⟩ := List.eq_append_cons_of_mem hslash
    have hsplit : path.parts = String.ofList first :: (splitSlash rest).map String.ofList := by
      rw [parts, htext, splitSlash_append_slash, splitSlash_of_not_mem hfirst]
      rfl
    -- Of the parts only the last is a step, so the first belongs to a root.
    have hfirst : String.ofList first ∈ front := by
      rw [hparts] at hsplit
      cases front with
      | nil => simp [splitSlash_ne_nil] at hsplit
      | cons part others => exact (List.cons.inj hsplit).1 ▸ List.mem_cons_self
    rw [htext, rootLength_of_not_isStep (List.filter_eq_nil_iff.mp hfront _ hfirst)] at hroot
    cases hroot
  · intro hslash
    obtain ⟨⟨cs, last⟩, hsplit, rfl⟩ := Option.map_eq_some_iff.mp habove
    rw [splitLast?_of_not_mem hsplit hslash]

/-- What a text begins with: a root, the current directory, or a step. -/
theorem start_cases {cs : List Char} (h : cs ≠ []) :
    cs.head? = some '/' ∨ (splitSlash cs).head? = some ['.'] ∨ stepsOf cs ≠ [] := by
  obtain ⟨c, rest, rfl⟩ := List.exists_cons_of_ne_nil h
  by_cases hc : c = '/'
  · exact .inl (by rw [hc]; rfl)
  · obtain ⟨first, others, hsplit⟩ := List.exists_cons_of_ne_nil (splitSlash_ne_nil rest)
    have hparts : splitSlash (c :: rest) = (c :: first) :: others := by
      simp [splitSlash, hc, hsplit]
    by_cases hdot : c :: first = ['.']
    · exact .inr (.inl (by rw [hparts, hdot]; rfl))
    · have hstep := (isStep_ofList_iff (c :: first)).mpr (by simp [hdot])
      right
      right
      unfold stepsOf
      rw [hparts, List.map_cons, List.filter_cons_of_pos hstep]
      exact List.cons_ne_nil _ _

/-- A name behind a directory is not the only component. -/
theorem one_lt_length_components_join {base : Path} (hbase : base ≠ ⟨""⟩) {name : String}
    (hname : IsPlain name) : 1 < (base.join ⟨name⟩).components.length := by
  have hcomponents : (base.join ⟨name⟩).components =
      (if (base.join ⟨name⟩).isAbsolute then ["/"]
        else if (base.join ⟨name⟩).parts.head? = some "." then ["."] else []) ++
      (base.steps ++ [name]) := by
    rw [← steps_join hname]
    rfl
  have htext : base.text.toList ≠ [] := by
    intro hempty
    rw [String.toList_eq_nil_iff] at hempty
    exact hbase (congrArg Path.mk hempty)
  rw [hcomponents, isAbsolute_join hname]
  rcases start_cases htext with habsolute | hdot | hsteps
  · simp [isAbsolute, habsolute]
  · have hhead : (base.join ⟨name⟩).parts.head? = some "." := by
      obtain ⟨front, hjoin, ⟨_, hempty⟩ | ⟨body, rfl, hbody⟩⟩ := base.exists_join
      · exact absurd hempty htext
      · obtain ⟨first, others, hsplit⟩ := List.exists_cons_of_ne_nil (splitSlash_ne_nil body)
        have hfirst : first = ['.'] := by
          rcases hbody with ⟨hbody, _⟩ | hbody
          · simpa [hbody, hsplit] using hdot
          · simpa [hbody, splitSlash_append_slash, hsplit] using hdot
        rw [parts, hjoin name hname, List.append_assoc, List.singleton_append,
          splitSlash_append_slash, hsplit, hfirst]
        rfl
    rw [hhead]
    split
    · simp
    · simp
  · have := List.length_pos_iff.mpr hsteps
    rw [List.length_append, List.length_append, steps_eq_stepsOf]
    simp
    omega

end Path

namespace Project

/-- Settings of which none is given are the defaults. -/
theorem ofToml_of_comments {text : String}
    (h : ∀ line ∈ Text.lines text.toList, Toml.isCommentLine line = true) :
    ofToml text = .ok {} := by
  unfold ofToml Document.parse Document.decodeToml
  rw [Toml.read?_of_comments h]
  rfl

/-- The default paths seen from a directory are other paths, unless the directory is the empty
path. -/
theorem isDefault_relativeTo_iff (base : Path) :
    (relativeTo {} base).isDefault = true ↔ base = ⟨""⟩ := by
  constructor
  · intro h
    by_contra hbase
    have hplain : Path.IsPlain "build" := ⟨by decide, by decide, by decide⟩
    have hlength := Path.one_lt_length_components_join hbase hplain
    have hsame : (base.join ⟨"build"⟩).same ⟨"build"⟩ = true := by
      simp only [isDefault, Bool.and_eq_true] at h
      exact h.2
    have hcomponents : (base.join ⟨"build"⟩).components = (Path.mk "build").components := by
      simpa [Path.same] using hsame
    rw [hcomponents] at hlength
    exact absurd hlength (by decide)
  · rintro rfl
    decide

/-- Joined to nothing the usual paths stay as they are. -/
theorem relativeTo_empty : relativeTo {} ⟨""⟩ = {} := by
  decide

end Project

/-- Settings of which none is given, because there is no file at a path or because the file there
has nothing but comments in it: without a file they are the defaults, and with one the
default paths are taken from the directory of the file. The two are the same exactly if
the path is a bare name. -/
theorem Project.settings_without_file (bare tree : FileTree) {path : Path} {text : String}
    (hmissing : bare.exists? path = false) (hfile : tree.readText? path = some text)
    (hcomments : ∀ line ∈ Text.lines text.toList, Toml.isCommentLine line = true) :
    ∃ project,
      load bare path = .ok {} ∧
      load tree path = .ok project ∧
      project = relativeTo {} (path.parent?.getD ⟨""⟩) ∧
      (project = {} ↔ '/' ∉ path.text.toList) ∧
      (project.isDefault = true ↔ '/' ∉ path.text.toList) := by
  have hexists : tree.exists? path = true := by
    rw [FileTree.exists?, FileTree.find_of_readText? hfile]
    rfl
  have hbase := Path.parent?_eq_empty_iff (FileTree.endsInStep_of_readText? hfile)
  refine ⟨relativeTo {} (path.parent?.getD ⟨""⟩), ?_, ?_, rfl, ?_, ?_⟩
  · simp [load, hmissing]
  · simp only [load, hexists, hfile, if_true, ofToml_of_comments hcomments]
    rfl
  · rw [← hbase]
    constructor
    · intro hsame
      rw [← isDefault_relativeTo_iff, hsame]
      decide
    · intro hempty
      rw [hempty, relativeTo_empty]
  · rw [isDefault_relativeTo_iff, hbase]

/-- A comment in a directory next to which nothing else is. -/
theorem Project.settings_without_file_nested :
    let bare := ({} : FileTree).plant ["conf"] .directory
    let tree := bare.plant ["conf", "msg2go.toml"] (.file (.text "# nothing\n"))
    ∃ project,
      load bare ⟨"conf/msg2go.toml"⟩ = .ok {} ∧
      load tree ⟨"conf/msg2go.toml"⟩ = .ok project ∧
      project.isDefault = false := by
  intro bare tree
  obtain ⟨project, hbare, htree, _, _, hdefault⟩ :=
    @settings_without_file bare tree ⟨"conf/msg2go.toml"⟩ "# nothing\n" (by decide) (by decide)
      (by decide)
  refine ⟨project, hbare, htree, ?_⟩
  rw [← Bool.not_eq_true, hdefault]
  decide

/-- An empty file in a directory moves the default paths into the directory. -/
theorem Project.empty_file_moves_paths :
    let bare := ({} : FileTree).plant ["conf"] .directory
    let tree := bare.plant ["conf", "msg2go.toml"] (.file (.text ""))
    load bare ⟨"conf/msg2go.toml"⟩ = .ok {} ∧
      load tree ⟨"conf/msg2go.toml"⟩ =
        .ok { paths := ⟨⟨"conf/ui/main.json"⟩, ⟨"conf/relation/main.json"⟩, ⟨"conf/build"⟩⟩ } := by
  decide +kernel

end GioForge
