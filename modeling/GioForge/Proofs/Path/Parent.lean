import GioForge.Path
import Mathlib.Data.List.TakeWhile

/-!
Which way a path leads. Of its parts only those count that are neither empty nor a single
dot; they are the steps of the path. Taking the parent of a path is done on its text and
has to leave such parts alone where they are not at its end, so it is proved here that the
parent has the same steps but for the last one, and that joining a name to a path adds
one step.
-/

namespace GioForge.Path

/-- A part that leads somewhere. -/
def isStep (part : String) : Bool :=
  part ≠ "" && part ≠ "."

def stepsOf (cs : List Char) : List String :=
  ((splitSlash cs).map String.ofList).filter isStep

def steps (p : Path) : List String :=
  p.parts.filter isStep

/-- A name that stands for one file in a directory. -/
def IsPlain (name : String) : Prop :=
  '/' ∉ name.toList ∧ isStep name = true ∧ name ≠ ".."

/-- The last part of the path leads somewhere. -/
def EndsInStep (p : Path) : Prop :=
  ∃ front name, p.parts = front ++ [name] ∧ isStep name = true

theorem splitSlash_ne_nil (cs : List Char) : splitSlash cs ≠ [] := by
  cases cs with
  | nil => simp [splitSlash]
  | cons c rest =>
      unfold splitSlash
      split
      · simp
      · split <;> simp

theorem splitSlash_append_slash (front back : List Char) :
    splitSlash (front ++ '/' :: back) = splitSlash front ++ splitSlash back := by
  induction front with
  | nil => simp [splitSlash]
  | cons c rest ih =>
      obtain ⟨first, others, hsplit⟩ := List.exists_cons_of_ne_nil (splitSlash_ne_nil rest)
      by_cases hc : c = '/'
      · simp [splitSlash, hc, ih]
      · simp [splitSlash, hc, ih, hsplit]

theorem splitSlash_of_not_mem {cs : List Char} (h : '/' ∉ cs) : splitSlash cs = [cs] := by
  induction cs with
  | nil => rfl
  | cons c rest ih =>
      simp only [List.mem_cons, not_or] at h
      simp [splitSlash, Ne.symm h.1, ih h.2]

theorem stepsOf_append_slash (front back : List Char) :
    stepsOf (front ++ '/' :: back) = stepsOf front ++ stepsOf back := by
  unfold stepsOf
  rw [splitSlash_append_slash, List.map_append, List.filter_append]

theorem stepsOf_slash_cons (cs : List Char) : stepsOf ('/' :: cs) = stepsOf cs :=
  stepsOf_append_slash [] cs

theorem isStep_ofList_iff (cs : List Char) :
    isStep (String.ofList cs) = true ↔ ¬ (cs = [] ∨ cs = ['.']) := by
  have hempty : String.ofList cs = "" ↔ cs = [] := by
    rw [← String.toList_inj]
    simp
  have hdot : String.ofList cs = "." ↔ cs = ['.'] := by
    rw [← String.toList_inj]
    simp
  simp [isStep, hempty, hdot]

theorem stepsOf_of_not_mem {cs : List Char} (h : '/' ∉ cs) :
    stepsOf cs = if cs = [] ∨ cs = ['.'] then [] else [String.ofList cs] := by
  unfold stepsOf
  rw [splitSlash_of_not_mem h, List.map_singleton, List.filter_cons, List.filter_nil]
  by_cases hcs : cs = [] ∨ cs = ['.']
  · rw [if_pos hcs, if_neg fun h => (isStep_ofList_iff cs).mp h hcs]
  · rw [if_neg hcs, if_pos ((isStep_ofList_iff cs).mpr hcs)]

/-- The first characters of a text are the ones that belong to no part: none, the root, or
the dot for the current directory. -/
inductive Rooted : Nat → List Char → Prop where
  | relative (cs : List Char) : Rooted 0 cs
  | absolute (rest : List Char) : Rooted 1 ('/' :: rest)
  | dot : Rooted 1 ['.']
  | dotted (rest : List Char) : Rooted 1 ('.' :: '/' :: rest)

theorem rooted_rootLength (cs : List Char) : Rooted (rootLength cs) cs := by
  unfold rootLength
  split
  · exact .absolute _
  · exact .dot
  · exact .dotted _
  · exact .relative _

/-- A text with nothing behind its root has no steps. -/
theorem Rooted.stepsOf_eq_nil {root : Nat} {cs : List Char} (h : Rooted root cs)
    (hlength : cs.length ≤ root) : stepsOf cs = [] := by
  cases h with
  | relative =>
      rw [List.length_eq_zero_iff.mp (show cs.length = 0 by omega)]
      rfl
  | absolute rest =>
      rw [List.length_cons] at hlength
      rw [List.length_eq_zero_iff.mp (show rest.length = 0 by omega)]
      rfl
  | dot => rfl
  | dotted rest =>
      rw [List.length_cons, List.length_cons] at hlength
      omega

/-- A text is what stands behind its last slash, or that with the slash and the rest in
front of it. -/
theorem lastPart_spec (cs : List Char) :
    '/' ∉ (cs.reverse.takeWhile (· != '/')).reverse ∧
      (cs = (cs.reverse.takeWhile (· != '/')).reverse ∨
        ∃ front, cs = front ++ '/' :: (cs.reverse.takeWhile (· != '/')).reverse) := by
  constructor
  · rw [List.mem_reverse]
    intro h
    have hne := List.mem_takeWhile_imp h
    simp at hne
  · have hsplit : cs = (cs.reverse.dropWhile (· != '/')).reverse ++
        (cs.reverse.takeWhile (· != '/')).reverse := by
      rw [← List.reverse_append, List.takeWhile_append_dropWhile, List.reverse_reverse]
    have hhead := List.head?_dropWhile_not (· != '/') cs.reverse
    cases hdrop : cs.reverse.dropWhile (· != '/') with
    | nil =>
        rw [hdrop] at hsplit
        exact .inl hsplit
    | cons c rest =>
        obtain rfl : c = '/' := by simpa [hdrop] using hhead
        rw [hdrop, List.reverse_cons, List.append_assoc, List.singleton_append] at hsplit
        exact .inr ⟨rest.reverse, hsplit⟩

/-- The last part is cut off together with the slash in front of it, unless the part
follows the root directly. -/
theorem cutLast_spec (root : Nat) (cs : List Char) :
    '/' ∉ (cutLast root cs).2 ∧
      ((∃ middle, (cutLast root cs).1 = cs.take root ++ middle ∧
          cs = cs.take root ++ middle ++ '/' :: (cutLast root cs).2) ∨
        (cutLast root cs).1 = cs.take root ∧ (cutLast root cs).2 = cs.drop root) := by
  obtain ⟨hslash, hsplit⟩ := lastPart_spec (cs.drop root)
  unfold cutLast
  dsimp only
  generalize ((cs.drop root).reverse.takeWhile (· != '/')).reverse = last at hslash hsplit ⊢
  refine ⟨hslash, ?_⟩
  rcases hsplit with hall | ⟨front, hfront⟩
  · right
    rw [hall]
    simp
  · left
    refine ⟨front, ?_, ?_⟩
    · have hbody : cs.drop root = front ++ ['/'] ++ last := by
        rw [hfront, List.append_assoc, List.singleton_append]
      rw [hbody, List.length_append, Nat.add_sub_cancel, List.take_left, List.dropLast_concat]
    · rw [List.append_assoc, ← hfront, List.take_append_drop]

namespace Rooted

variable {root : Nat} {cs : List Char}

theorem cutLast (h : Rooted root cs) : Rooted root (cutLast root cs).1 := by
  rcases (cutLast_spec root cs).2 with ⟨middle, hfront, hcs⟩ | ⟨hfront, _⟩
  · rw [hfront]
    cases h with
    | relative => exact .relative _
    | absolute rest => exact .absolute _
    | dot => simp at hcs
    | dotted rest =>
        cases middle with
        | nil => exact .dot
        | cons c middle =>
            obtain rfl : '/' = c := (List.cons.inj (List.cons.inj hcs).2).1
            exact .dotted _
  · rw [hfront]
    cases h with
    | relative => exact .relative _
    | absolute rest => exact .absolute _
    | dot => exact .dot
    | dotted rest => exact .dot

/-- The last part is cut off with its steps, and the others are left. -/
theorem stepsOf_eq (h : Rooted root cs) :
    stepsOf cs = stepsOf (Path.cutLast root cs).1 ++ stepsOf (Path.cutLast root cs).2 := by
  obtain ⟨hslash, ⟨middle, hfront, hcs⟩ | ⟨hfront, hlast⟩⟩ := cutLast_spec root cs
  · rw [hfront, ← stepsOf_append_slash, ← hcs]
  · rw [hfront, hlast]
    cases h with
    | relative => rfl
    | absolute rest => exact stepsOf_slash_cons rest
    | dot => rfl
    | dotted rest =>
        rw [hlast] at hslash
        simp at hslash

theorem splitSlash_eq (h : Rooted root cs) (hlength : root < cs.length) :
    ∃ front, splitSlash cs = front ++ [(Path.cutLast root cs).2] := by
  obtain ⟨hslash, ⟨middle, _, hcs⟩ | ⟨_, hlast⟩⟩ := cutLast_spec root cs
  · refine ⟨splitSlash (cs.take root ++ middle), ?_⟩
    rw [← splitSlash_of_not_mem hslash, ← splitSlash_append_slash, ← hcs]
  · rw [hlast] at hslash ⊢
    cases h with
    | relative => exact ⟨[], splitSlash_of_not_mem hslash⟩
    | absolute rest => exact ⟨[[]], congrArg _ (splitSlash_of_not_mem hslash)⟩
    | dot => exact absurd hlength (by simp)
    | dotted rest => simp at hslash

/-- Empty parts and dots at the end go, and with them no step. -/
theorem trimDots (h : Rooted root cs) (fuel : Nat) :
    Rooted root (Path.trimDots root fuel cs) ∧
      stepsOf (Path.trimDots root fuel cs) = stepsOf cs := by
  induction fuel generalizing cs with
  | zero => exact ⟨h, rfl⟩
  | succ fuel ih =>
      unfold Path.trimDots
      dsimp only
      split_ifs with hlength hlast
      · exact ⟨h, rfl⟩
      · obtain ⟨hrooted, hsteps⟩ := ih h.cutLast
        refine ⟨hrooted, ?_⟩
        have htrivial : stepsOf (Path.cutLast root cs).2 = [] := by
          rw [stepsOf_of_not_mem (cutLast_spec root cs).1, if_pos (by simpa using hlast)]
        rw [hsteps, h.stepsOf_eq, htrivial, List.append_nil]
      · exact ⟨h, rfl⟩

end Rooted

theorem length_cutLast {root : Nat} {cs : List Char} (h : root < cs.length) :
    (cutLast root cs).1.length < cs.length := by
  rcases (cutLast_spec root cs).2 with ⟨middle, hfront, hcs⟩ | ⟨hfront, _⟩
  · have hlength := congrArg List.length hcs
    rw [hfront]
    simp only [List.length_append, List.length_cons] at hlength ⊢
    omega
  · rw [hfront, List.length_take]
    omega

theorem cutLast_isPrefix (root : Nat) (cs : List Char) : (cutLast root cs).1 <+: cs := by
  rcases (cutLast_spec root cs).2 with ⟨middle, hfront, hcs⟩ | ⟨hfront, _⟩
  · rw [hfront]
    exact ⟨_, hcs.symm⟩
  · rw [hfront]
    exact List.take_prefix root cs

theorem trimDots_isPrefix (root fuel : Nat) (cs : List Char) : trimDots root fuel cs <+: cs := by
  induction fuel generalizing cs with
  | zero => exact List.prefix_rfl
  | succ fuel ih =>
      unfold trimDots
      dsimp only
      split_ifs
      · exact List.prefix_rfl
      · exact (ih _).trans (cutLast_isPrefix root cs)
      · exact List.prefix_rfl

/-- With fuel for every character the part that stands last after trimming is a step. -/
theorem last_trimDots {root fuel : Nat} {cs : List Char} (hfuel : cs.length < fuel)
    (hlength : root < (trimDots root fuel cs).length) :
    ¬ ((cutLast root (trimDots root fuel cs)).2 = [] ∨
      (cutLast root (trimDots root fuel cs)).2 = ['.']) := by
  induction fuel generalizing cs with
  | zero => omega
  | succ fuel ih =>
      unfold trimDots at hlength ⊢
      dsimp only at hlength ⊢
      split_ifs at hlength ⊢ with hshort hlast
      · omega
      · have hcut := length_cutLast (Nat.lt_of_not_le hshort)
        exact ih (by omega) hlength
      · simpa using hlast

/-- What stands in front of the last component, if that is a part and not the dot for the
current directory. -/
theorem splitLast?_cases {cs front name : List Char} (h : splitLast? cs = some (front, name)) :
    (cs.head? = some '.' ∧ front = [] ∧ stepsOf cs = []) ∨
      ∃ trimmed, Rooted (rootLength cs) trimmed ∧ trimmed <+: cs ∧ stepsOf trimmed = stepsOf cs ∧
        rootLength cs < trimmed.length ∧
        ¬ ((cutLast (rootLength cs) trimmed).2 = [] ∨
          (cutLast (rootLength cs) trimmed).2 = ['.']) ∧
        front = trimDots (rootLength cs) (cs.length + 1) (cutLast (rootLength cs) trimmed).1 := by
  obtain ⟨htrimmed, hsteps⟩ := (rooted_rootLength cs).trimDots (cs.length + 1)
  unfold splitLast? at h
  dsimp only at h
  split_ifs at h with hshort hdot
  · obtain ⟨rfl, rfl⟩ := Prod.mk.inj (Option.some.inj h)
    simp only [Bool.and_eq_true, decide_eq_true_eq] at hdot
    exact .inl ⟨hdot.1, rfl, by rw [← hsteps, htrimmed.stepsOf_eq_nil hshort]⟩
  · obtain ⟨rfl, rfl⟩ := Prod.mk.inj (Option.some.inj h)
    have hlength := Nat.lt_of_not_le hshort
    exact .inr ⟨_, htrimmed, trimDots_isPrefix _ _ _, hsteps, hlength,
      last_trimDots (Nat.lt_succ_self cs.length) hlength, rfl⟩

/-- What is left of a path without its last step has all the other steps, and is as absolute. -/
theorem splitLast?_spec {cs front name : List Char} (h : splitLast? cs = some (front, name)) :
    front <+: cs ∧ front.length < cs.length ∧ stepsOf front = (stepsOf cs).dropLast ∧
      (cs.head? = some '/' → front.head? = some '/') := by
  obtain ⟨hdot, rfl, hsteps⟩ | ⟨trimmed, htrimmed, hpart, hsteps, hlength, hlast, rfl⟩ :=
    splitLast?_cases h
  · refine ⟨List.nil_prefix, ?_, by rw [hsteps]; rfl, ?_⟩
    · cases cs with
      | nil => cases hdot
      | cons c rest => exact Nat.succ_pos _
    · intro hslash
      simp [hslash] at hdot
  · obtain ⟨hfront, hfrontSteps⟩ := htrimmed.cutLast.trimDots (cs.length + 1)
    have hcut := (trimDots_isPrefix (rootLength cs) (cs.length + 1)
      (cutLast (rootLength cs) trimmed).1)
    have hstart := (hcut.trans (cutLast_isPrefix _ trimmed)).trans hpart
    refine ⟨hstart, ?_, ?_, ?_⟩
    · have hshorter := length_cutLast hlength
      have := hcut.length_le
      have := hpart.length_le
      omega
    · rw [hfrontSteps, ← hsteps, htrimmed.stepsOf_eq, stepsOf_of_not_mem (cutLast_spec _ _).1,
        if_neg hlast, List.dropLast_concat]
    · intro habsolute
      -- The text in front is not empty, because its root is kept.
      obtain ⟨rest, rfl⟩ := List.head?_eq_some_iff.mp habsolute
      generalize trimDots _ _ _ = front at hfront hstart
      have hone : rootLength ('/' :: rest) = 1 := rfl
      rw [hone] at hfront
      cases hfront with
      | absolute => rfl
      | dot => simp at hstart
      | dotted => simp at hstart

/-- What stands in front of the last component ends in a step, if there is one in it. -/
theorem splitLast?_ends {cs front name : List Char} (h : splitLast? cs = some (front, name))
    (hsome : stepsOf front ≠ []) :
    ∃ before last, splitSlash front = before ++ [last] ∧ ¬ (last = [] ∨ last = ['.']) := by
  obtain ⟨_, rfl, _⟩ | ⟨trimmed, htrimmed, hpart, _, hlength, _, rfl⟩ := splitLast?_cases h
  · exact absurd rfl hsome
  · obtain ⟨hfront, _⟩ := htrimmed.cutLast.trimDots (cs.length + 1)
    have hlong : rootLength cs < (trimDots (rootLength cs) (cs.length + 1)
        (cutLast (rootLength cs) trimmed).1).length := by
      by_contra hshort
      exact hsome (hfront.stepsOf_eq_nil (Nat.le_of_not_lt hshort))
    obtain ⟨before, hbefore⟩ := hfront.splitSlash_eq hlong
    refine ⟨before, _, hbefore, last_trimDots ?_ hlong⟩
    have := length_cutLast hlength
    have := hpart.length_le
    omega

theorem exists_splitLast? {cs : List Char} (h : stepsOf cs ≠ []) :
    ∃ front name, splitLast? cs = some (front, name) := by
  obtain ⟨htrimmed, hsteps⟩ := (rooted_rootLength cs).trimDots (cs.length + 1)
  unfold splitLast?
  dsimp only
  rw [if_neg]
  · exact ⟨_, _, rfl⟩
  · intro hshort
    exact h (by rw [← hsteps, htrimmed.stepsOf_eq_nil hshort])

theorem steps_eq_stepsOf (p : Path) : p.steps = stepsOf p.text.toList := rfl

/-- The parent of a path has all its steps but the last one. -/
theorem parent?_spec {p above : Path} (h : p.parent? = some above) :
    above.text.toList <+: p.text.toList ∧ above.steps = p.steps.dropLast ∧
      above.isAbsolute = p.isAbsolute := by
  obtain ⟨⟨front, name⟩, hsplit, rfl⟩ := Option.map_eq_some_iff.mp h
  obtain ⟨hstart, _, hsteps, habsolute⟩ := splitLast?_spec hsplit
  have htext : (Path.mk (String.ofList front)).text.toList = front := String.toList_ofList
  refine ⟨by rw [htext]; exact hstart, ?_, ?_⟩
  · rw [steps_eq_stepsOf, steps_eq_stepsOf, htext, hsteps]
  · unfold isAbsolute
    rw [htext, Bool.eq_iff_iff, beq_iff_eq, beq_iff_eq]
    constructor
    · intro hfront
      obtain ⟨rest, rfl⟩ := List.head?_eq_some_iff.mp hfront
      obtain ⟨more, hmore⟩ := hstart
      rw [← hmore]
      rfl
    · exact habsolute

/-- A parent is shorter, so going up comes to an end. -/
theorem length_parent? {p above : Path} (h : p.parent? = some above) :
    above.text.length < p.text.length := by
  obtain ⟨⟨front, name⟩, hsplit, rfl⟩ := Option.map_eq_some_iff.mp h
  have hlength := (splitLast?_spec hsplit).2.1
  rw [String.length_toList] at hlength
  simpa using hlength

theorem endsInStep_parent? {p above : Path} (h : p.parent? = some above)
    (hsome : above.steps ≠ []) : above.EndsInStep := by
  obtain ⟨⟨front, name⟩, hsplit, rfl⟩ := Option.map_eq_some_iff.mp h
  have htext : (Path.mk (String.ofList front)).text.toList = front := String.toList_ofList
  rw [steps_eq_stepsOf, htext] at hsome
  obtain ⟨before, last, hparts, hlast⟩ := splitLast?_ends hsplit hsome
  refine ⟨before.map String.ofList, String.ofList last, ?_, (isStep_ofList_iff last).mpr hlast⟩
  rw [parts, htext, hparts, List.map_append]
  rfl

theorem exists_parent? {p : Path} (h : p.steps ≠ []) : ∃ above, p.parent? = some above := by
  obtain ⟨front, name, hsplit⟩ := exists_splitLast? h
  exact ⟨_, Option.map_eq_some_iff.mpr ⟨_, hsplit, rfl⟩⟩

/-- What stands in front of a name that is joined to a path: nothing, or the path up to a
slash. -/
theorem exists_join (base : Path) :
    ∃ front : List Char,
      (∀ name, IsPlain name → (base.join ⟨name⟩).text.toList = front ++ name.toList) ∧
      (front = [] ∧ base.text.toList = [] ∨
        ∃ body, front = body ++ ['/'] ∧
          (base.text.toList = body ∧ body ≠ [] ∨ base.text.toList = body ++ ['/'])) := by
  have hrelative : ∀ name, IsPlain name → (Path.mk name).isAbsolute = false := by
    intro name h
    unfold isAbsolute
    rw [beq_eq_false_iff_ne]
    intro hhead
    obtain ⟨rest, hrest⟩ := List.head?_eq_some_iff.mp hhead
    exact h.1 (hrest ▸ List.mem_cons_self)
  by_cases hends : (base.text.isEmpty || base.text.toList.getLast? == some '/') = true
  · refine ⟨base.text.toList, ?_, ?_⟩
    · intro name h
      simp [join, hrelative name h, hends]
    · rcases (Bool.or_eq_true _ _).mp hends with hempty | hslash
      · left
        simpa using hempty
      · right
        obtain ⟨body, hbody⟩ := List.getLast?_eq_some_iff.mp (beq_iff_eq.mp hslash)
        exact ⟨body, hbody, .inr hbody⟩
  · refine ⟨base.text.toList ++ ['/'], ?_, ?_⟩
    · intro name h
      simp [join, hrelative name h, hends]
    · right
      refine ⟨base.text.toList, rfl, .inl ⟨rfl, ?_⟩⟩
      intro hempty
      simp [String.toList_eq_nil_iff.mp hempty] at hends

/-- A plain name is the last part of the path it is joined to. -/
theorem parts_join {name : String} (h : IsPlain name) (base : Path) :
    ∃ front, (base.join ⟨name⟩).parts = front ++ [name] ∧ front.filter isStep = base.steps := by
  obtain ⟨front, htext, hfront⟩ := base.exists_join
  have hname : splitSlash name.toList = [name.toList] := splitSlash_of_not_mem h.1
  unfold parts
  rw [htext name h, steps_eq_stepsOf]
  rcases hfront with ⟨rfl, hbase⟩ | ⟨body, rfl, hbase⟩
  · refine ⟨[], ?_, ?_⟩
    · simp [hname]
    · rw [hbase]
      rfl
  · refine ⟨(splitSlash body).map String.ofList, ?_, ?_⟩
    · rw [List.append_assoc, List.singleton_append, splitSlash_append_slash, hname]
      simp
    · rcases hbase with ⟨hbase, _⟩ | hbase
      · rw [hbase]
        rfl
      · rw [hbase, stepsOf_append_slash body []]
        exact (List.append_nil _).symm

theorem isAbsolute_join {name : String} (h : IsPlain name) (base : Path) :
    (base.join ⟨name⟩).isAbsolute = base.isAbsolute := by
  obtain ⟨front, htext, hfront⟩ := base.exists_join
  unfold isAbsolute
  rw [htext name h]
  rcases hfront with ⟨rfl, hbase⟩ | ⟨body, rfl, ⟨hbase, hbody⟩ | hbase⟩
  · rw [hbase, List.nil_append]
    cases hname : name.toList with
    | nil => rfl
    | cons c rest =>
        have hc : c ≠ '/' := by
          rintro rfl
          exact h.1 (hname ▸ List.mem_cons_self)
        simp [hc]
  · obtain ⟨c, rest, rfl⟩ := List.exists_cons_of_ne_nil hbody
    rw [hbase]
    rfl
  · rw [hbase]
    cases body <;> rfl

theorem steps_join {name : String} (h : IsPlain name) (base : Path) :
    (base.join ⟨name⟩).steps = base.steps ++ [name] := by
  obtain ⟨front, hparts, hfront⟩ := parts_join h base
  rw [steps, hparts, List.filter_append, hfront, List.filter_cons, if_pos h.2.1, List.filter_nil]

end GioForge.Path
