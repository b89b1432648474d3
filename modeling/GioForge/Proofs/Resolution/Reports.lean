import GioForge.Proofs.Component.Builtin
import GioForge.Proofs.Resolution.LastWins

/-!
What is noted about scripts. Each script adds its own notes behind those of the scripts
before it: a warning if it cannot be used or if nobody knows its kind, and then an info
if it takes the place of an earlier script. Which notes these are depends on the scripts
before it and on no other ones, so everything about a whole document is proved by taking
scripts off its end.
-/

namespace GioForge.Resolution

def notesAt (r : Resolution) (index : Nat) : List Diagnostic :=
  r.diagnostics.filter fun d => d.location = some (placeOf index)

def warningsAt (r : Resolution) (index : Nat) : List Diagnostic :=
  (r.notesAt index).filter fun d => d.severity = .warning

def infosAt (r : Resolution) (index : Nat) : List Diagnostic :=
  (r.notesAt index).filter fun d => d.severity = .info

/-- The response of the script is of a kind that nobody knows. -/
def UnknownKind (responders : Responders) (script : Relation.Script) : Prop :=
  ∃ response, script.response.bind Response.ofValue? = some response ∧
    responders.contains response.kind = false

/-- The script is used although nobody knows the kind of its response, which has a text
that can be shown. -/
def FallsBack (responders : Responders) (script : Relation.Script) : Prop :=
  ∃ action response, script.action? = some action ∧
    script.response.bind Response.ofValue? = some response ∧
    responders.contains response.kind = false ∧ response.freeText?.isSome = true

/-- Some script comes to a text for the action. -/
def Defined (responders : Responders) (scripts : List Relation.Script) (action : String) : Prop :=
  ∃ script ∈ scripts, ∃ text, resolved? responders script = some (action, text)

theorem placeOf_injective : Function.Injective placeOf := by
  intro i j h
  unfold placeOf at h
  rw [String.append_left_inj, String.append_right_inj] at h
  exact Text.decimalText_injective h

theorem contains_eq_false_iff (responders : Responders) (kind : String) :
    responders.contains kind = false ↔ responders.get? kind = none := by
  rw [Bool.eq_false_iff, Ne, Table.contains_iff_mem_keys, Table.mem_keys_iff_isSome,
    Option.not_isSome_iff_eq_none]

/-- A script is warned about exactly if it cannot be used or nobody knows its kind. -/
theorem outcome_warned_iff (responders : Responders) (script : Relation.Script)
    (place : String) :
    (outcome responders script place).2.isSome = true ↔
      resolved? responders script = none ∨ UnknownKind responders script := by
  unfold outcome resolved? UnknownKind
  simp only [contains_eq_false_iff]
  cases haction : script.action? with
  | none => simp
  | some action =>
      cases hresponse : script.response.bind Response.ofValue? with
      | none => simp
      | some response =>
          unfold dispatch fragment?
          cases hkind : responders.get? response.kind with
          | some responder =>
              cases htext : responder response <;> simp [hkind, htext]
          | none => cases hfree : response.freeText? <;> simp [hkind, hfree]

/-- A dispatch reports a warning at most. -/
theorem note_of_dispatch {responders : Responders} {response : Response} {action place : String}
    {d : Diagnostic} (h : (dispatch responders response action place).2 = some d) :
    ∃ message, d = warning message place := by
  unfold dispatch at h
  split at h
  · split at h
    · cases h
    · exact ⟨_, (Option.some.inj h).symm⟩
  · dsimp only at h
    split_ifs at h
    · exact ⟨_, (Option.some.inj h).symm⟩
    · exact ⟨_, (Option.some.inj h).symm⟩

theorem note_of_outcome {responders : Responders} {script : Relation.Script} {place : String}
    {d : Diagnostic} (h : (outcome responders script place).2 = some d) :
    d.severity = .warning ∧ d.location = some place ∧ d.phase = phase := by
  have hwarning : ∃ message, d = warning message place := by
    unfold outcome at h
    cases haction : script.action? with
    | none =>
        rw [haction] at h
        exact ⟨_, (Option.some.inj h).symm⟩
    | some action =>
        rw [haction] at h
        cases hresponse : script.response.bind Response.ofValue? with
        | none =>
            rw [hresponse] at h
            exact ⟨_, (Option.some.inj h).symm⟩
        | some response =>
            rw [hresponse] at h
            exact note_of_dispatch h
  obtain ⟨message, rfl⟩ := hwarning
  exact ⟨rfl, rfl, rfl⟩

/-- A script of an unknown kind is used exactly if it falls back on its text. -/
theorem fallsBack_iff (responders : Responders) (script : Relation.Script) :
    FallsBack responders script ↔
      (resolved? responders script).isSome = true ∧ UnknownKind responders script := by
  unfold FallsBack UnknownKind
  simp only [contains_eq_false_iff]
  constructor
  · rintro ⟨action, response, haction, hresponse, hkind, hfree⟩
    refine ⟨?_, response, hresponse, hkind⟩
    obtain ⟨text, htext⟩ := Option.isSome_iff_exists.mp hfree
    simp [resolved?, haction, hresponse, fragment?, hkind, htext]
  · rintro ⟨hused, response, hresponse, hkind⟩
    unfold resolved? at hused
    cases haction : script.action? with
    | none => simp [haction] at hused
    | some action =>
        refine ⟨action, response, rfl, hresponse, hkind, ?_⟩
        cases hfree : response.freeText? with
        | none => simp [haction, hresponse, fragment?, hkind, hfree] at hused
        | some text => rfl

/-- What one script adds to the notes, behind the scripts before it. -/
def notes (responders : Responders) (before : List Relation.Script)
    (script : Relation.Script) : List Diagnostic :=
  let place := placeOf before.length
  (outcome responders script place).2.toList ++
    match resolved? responders script with
    | none => []
    | some (action, _) =>
        if (ofRelation responders ⟨before⟩).handlers.contains action then
          [redefined action place]
        else []

/-- An action is handled exactly if one of its scripts resolves. -/
theorem handlers_contains_iff (responders : Responders) (scripts : List Relation.Script)
    (action : String) :
    (ofRelation responders ⟨scripts⟩).handlers.contains action = true ↔
      Defined responders scripts action := by
  rw [Table.contains_iff_mem_keys, handlers_ofRelation, Table.mem_keys_ofList]
  simp only [resolving, Defined, List.mem_map, List.mem_filterMap, Prod.exists]
  constructor
  · rintro ⟨_, text, ⟨script, hscript, hresolved⟩, rfl⟩
    exact ⟨script, hscript, text, hresolved⟩
  · rintro ⟨script, hscript, text, hresolved⟩
    exact ⟨action, text, ⟨script, hscript, hresolved⟩, rfl⟩

/-- The last script is taken with what the ones before it came to. -/
theorem ofRelation_concat (responders : Responders) (before : List Relation.Script)
    (script : Relation.Script) :
    ofRelation responders ⟨before ++ [script]⟩ =
      step responders (ofRelation responders ⟨before⟩) script before.length := by
  simp [ofRelation, List.zipIdx_append]

/-- A script adds its own notes behind those before it. -/
theorem diagnostics_concat (responders : Responders) (before : List Relation.Script)
    (script : Relation.Script) :
    (ofRelation responders ⟨before ++ [script]⟩).diagnostics =
      (ofRelation responders ⟨before⟩).diagnostics ++ notes responders before script := by
  rw [ofRelation_concat]
  unfold notes step
  simp only [← outcome_handler responders script (placeOf before.length)]
  obtain ⟨handler, note⟩ := outcome responders script (placeOf before.length)
  cases handler with
  | none => simp
  | some pair => simp

/-- The notes of a script are warnings and infos at its place. -/
theorem mem_notes {responders : Responders} {before : List Relation.Script}
    {script : Relation.Script} {d : Diagnostic} (h : d ∈ notes responders before script) :
    (d.severity = .warning ∨ d.severity = .info) ∧
      d.location = some (placeOf before.length) ∧ d.phase = phase := by
  unfold notes at h
  rcases List.mem_append.mp h with hown | hagain
  · obtain ⟨hseverity, hlocation, hphase⟩ := note_of_outcome (Option.mem_toList.mp hown)
    exact ⟨.inl hseverity, hlocation, hphase⟩
  · split at hagain
    · cases hagain
    · split_ifs at hagain
      · rw [List.mem_singleton.mp hagain]
        exact ⟨.inr rfl, rfl, rfl⟩
      · cases hagain

theorem filter_warning_notes (responders : Responders) (before : List Relation.Script)
    (script : Relation.Script) :
    (notes responders before script).filter (fun d => d.severity = .warning) =
      (outcome responders script (placeOf before.length)).2.toList := by
  unfold notes
  rw [List.filter_append]
  have hown : (outcome responders script (placeOf before.length)).2.toList.filter
      (fun d => d.severity = .warning) =
        (outcome responders script (placeOf before.length)).2.toList := by
    rw [List.filter_eq_self]
    intro d hd
    exact decide_eq_true (note_of_outcome (Option.mem_toList.mp hd)).1
  rw [hown]
  split
  · simp
  · split_ifs <;> simp [redefined]

theorem filter_info_notes (responders : Responders) (before : List Relation.Script)
    (script : Relation.Script) :
    (notes responders before script).filter (fun d => d.severity = .info) =
      match resolved? responders script with
      | none => []
      | some (action, _) =>
          if (ofRelation responders ⟨before⟩).handlers.contains action then
            [redefined action (placeOf before.length)]
          else [] := by
  unfold notes
  rw [List.filter_append]
  have hown : (outcome responders script (placeOf before.length)).2.toList.filter
      (fun d => d.severity = .info) = [] := by
    rw [List.filter_eq_nil_iff]
    intro d hd
    rw [(note_of_outcome (Option.mem_toList.mp hd)).1]
    decide
  rw [hown, List.nil_append]
  split
  · rfl
  · split_ifs <;> simp [redefined]

theorem mem_diagnostics {responders : Responders} {scripts : List Relation.Script}
    {d : Diagnostic} (h : d ∈ (ofRelation responders ⟨scripts⟩).diagnostics) :
    (d.severity = .warning ∨ d.severity = .info) ∧ d.phase = phase ∧
      ∃ i < scripts.length, d.location = some (placeOf i) := by
  induction scripts using List.reverseRecOn with
  | nil => cases h
  | append_singleton before script ih =>
      rw [diagnostics_concat, List.mem_append] at h
      rw [List.length_append, List.length_singleton]
      rcases h with hearlier | hown
      · obtain ⟨hseverity, hphase, i, hi, hlocation⟩ := ih hearlier
        exact ⟨hseverity, hphase, i, by omega, hlocation⟩
      · obtain ⟨hseverity, hlocation, hphase⟩ := mem_notes hown
        exact ⟨hseverity, hphase, before.length, by omega, hlocation⟩

/-- Notes stand in the order of the scripts. -/
theorem diagnostics_pairwise (responders : Responders) (scripts : List Relation.Script) :
    (ofRelation responders ⟨scripts⟩).diagnostics.Pairwise fun a b =>
      ∀ i j, a.location = some (placeOf i) → b.location = some (placeOf j) → i ≤ j := by
  induction scripts using List.reverseRecOn with
  | nil => exact List.Pairwise.nil
  | append_singleton before script ih =>
      have hindex : ∀ {d : Diagnostic} {i : Nat}, d ∈ notes responders before script →
          d.location = some (placeOf i) → i = before.length := by
        intro d i hd hi
        rw [(mem_notes hd).2.1] at hi
        exact (placeOf_injective (Option.some.inj hi)).symm
      rw [diagnostics_concat, List.pairwise_append]
      refine ⟨ih, List.pairwise_iff_forall_sublist.mpr ?_, ?_⟩
      · intro a b hab i j hi hj
        have ha := hindex (hab.subset (by simp)) hi
        have hb := hindex (hab.subset (by simp)) hj
        omega
      · intro a ha b hb i j hi hj
        obtain ⟨k, hk, hlocation⟩ := (mem_diagnostics ha).2.2
        rw [hlocation] at hi
        rw [← placeOf_injective (Option.some.inj hi), hindex hb hj]
        exact Nat.le_of_lt hk

/-- The notes about a script are those it adds behind the scripts before it. -/
theorem notesAt_ofRelation {responders : Responders} {scripts : List Relation.Script} {i : Nat}
    {script : Relation.Script} (h : scripts[i]? = some script) :
    (ofRelation responders ⟨scripts⟩).notesAt i = notes responders (scripts.take i) script := by
  induction scripts using List.reverseRecOn with
  | nil => cases h
  | append_singleton before last ih =>
      unfold notesAt at ih ⊢
      rw [diagnostics_concat, List.filter_append]
      rcases Nat.lt_trichotomy i before.length with hlt | rfl | hgt
      · have hnone : (notes responders before last).filter
            (fun d => d.location = some (placeOf i)) = [] := by
          rw [List.filter_eq_nil_iff]
          intro d hd
          rw [(mem_notes hd).2.1, decide_eq_true_eq]
          intro heq
          have := placeOf_injective (Option.some.inj heq)
          omega
        rw [List.getElem?_append_left hlt] at h
        rw [hnone, List.append_nil, ih h, List.take_append_of_le_length (Nat.le_of_lt hlt)]
      · have hnone : (ofRelation responders ⟨before⟩).diagnostics.filter
            (fun d => d.location = some (placeOf before.length)) = [] := by
          rw [List.filter_eq_nil_iff]
          intro d hd
          obtain ⟨k, hk, hlocation⟩ := (mem_diagnostics hd).2.2
          rw [hlocation, decide_eq_true_eq]
          intro heq
          have := placeOf_injective (Option.some.inj heq)
          omega
        have hall : (notes responders before last).filter
            (fun d => d.location = some (placeOf before.length)) =
              notes responders before last := by
          rw [List.filter_eq_self]
          intro d hd
          exact decide_eq_true (mem_notes hd).2.1
        obtain rfl : last = script := by simpa using h
        rw [hnone, hall, List.nil_append, List.take_left]
      · rw [List.getElem?_eq_none (by simp; omega)] at h
        cases h

/-- Each use of a script adds a handler or is noted as an info. -/
theorem length_resolving (responders : Responders) (scripts : List Relation.Script) :
    (resolving responders ⟨scripts⟩).length =
      (ofRelation responders ⟨scripts⟩).handlers.size +
        ((ofRelation responders ⟨scripts⟩).diagnostics.filter
          fun d => d.severity = .info).length := by
  induction scripts using List.reverseRecOn with
  | nil => rfl
  | append_singleton before script ih =>
      have hresolving : resolving responders ⟨before ++ [script]⟩ =
          resolving responders ⟨before⟩ ++ (resolved? responders script).toList := by
        unfold resolving
        rw [List.filterMap_append, List.filterMap_cons, List.filterMap_nil]
        cases resolved? responders script <;> rfl
      have hhandlers := handlers_step responders (ofRelation responders ⟨before⟩) script
        before.length
      rw [hresolving, diagnostics_concat, List.filter_append, filter_info_notes,
        ofRelation_concat, hhandlers, List.length_append, List.length_append, ih]
      cases resolved? responders script with
      | none => rfl
      | some pair =>
          obtain ⟨action, text⟩ := pair
          have hsize := Table.size_insert (ofRelation responders ⟨before⟩).handlers action text
          dsimp only
          rw [hsize]
          split_ifs <;> simp <;> omega

/-- The warnings at a place are those of the script there. -/
theorem warningsAt_ofRelation {responders : Responders} {scripts : List Relation.Script} {i : Nat}
    {script : Relation.Script} (h : scripts[i]? = some script) :
    (ofRelation responders ⟨scripts⟩).warningsAt i =
      (outcome responders script (placeOf (scripts.take i).length)).2.toList := by
  rw [warningsAt, notesAt_ofRelation h, filter_warning_notes]

theorem warningsAt_ne_nil_iff {responders : Responders} {scripts : List Relation.Script} {i : Nat}
    {script : Relation.Script} (h : scripts[i]? = some script) :
    (ofRelation responders ⟨scripts⟩).warningsAt i ≠ [] ↔
      resolved? responders script = none ∨ UnknownKind responders script := by
  rw [warningsAt_ofRelation h, Ne, Option.toList_eq_nil_iff, ← Ne, ← Option.isSome_iff_ne_none,
    outcome_warned_iff]

theorem infosAt_of_unused {responders : Responders} {scripts : List Relation.Script} {i : Nat}
    {script : Relation.Script} (h : scripts[i]? = some script)
    (hunused : resolved? responders script = none) :
    (ofRelation responders ⟨scripts⟩).infosAt i = [] := by
  rw [infosAt, notesAt_ofRelation h, filter_info_notes, hunused]

/-- A script is reported as replacing exactly if its action was handled before. -/
theorem infosAt_ne_nil_iff {responders : Responders} {scripts : List Relation.Script} {i : Nat}
    {script : Relation.Script} {action text : String} (h : scripts[i]? = some script)
    (hused : resolved? responders script = some (action, text)) :
    (ofRelation responders ⟨scripts⟩).infosAt i ≠ [] ↔
      Defined responders (scripts.take i) action := by
  rw [infosAt, notesAt_ofRelation h, filter_info_notes, hused]
  dsimp only
  rw [← handlers_contains_iff]
  split_ifs with hcontains <;> simp [hcontains]

/-- Among the notes about one script its warning comes first. -/
theorem notesAt_eq_append {responders : Responders} {scripts : List Relation.Script} {i : Nat}
    {script : Relation.Script} (h : scripts[i]? = some script) :
    (ofRelation responders ⟨scripts⟩).notesAt i =
      (ofRelation responders ⟨scripts⟩).warningsAt i ++
        (ofRelation responders ⟨scripts⟩).infosAt i := by
  rw [warningsAt_ofRelation h, infosAt, notesAt_ofRelation h, filter_info_notes]
  rfl

/-- A script that cannot be used is warned about once; so is one that falls back on its
text, but no other script that is used. -/
theorem unused_iff_warned {responders : Responders} {scripts : List Relation.Script} {i : Nat}
    {script : Relation.Script} (h : scripts[i]? = some script) :
    resolved? responders script = none ↔
      ((ofRelation responders ⟨scripts⟩).warningsAt i).length = 1 ∧
        (ofRelation responders ⟨scripts⟩).infosAt i = [] ∧ ¬ FallsBack responders script := by
  rw [warningsAt_ofRelation h, Option.length_toList, fallsBack_iff]
  have hwarned := outcome_warned_iff responders script (placeOf (scripts.take i).length)
  constructor
  · intro hunused
    refine ⟨?_, infosAt_of_unused h hunused, ?_⟩
    · rw [if_pos (hwarned.mpr (.inl hunused))]
    · rintro ⟨hused, _⟩
      rw [hunused] at hused
      cases hused
  · rintro ⟨hone, _, hknown⟩
    have hsome : (outcome responders script (placeOf (scripts.take i).length)).2.isSome = true := by
      by_contra hnot
      rw [if_neg hnot] at hone
      cases hone
    rcases hwarned.mp hsome with hunused | hkind
    · exact hunused
    · rw [← Option.not_isSome_iff_eq_none]
      exact fun hused => hknown ⟨hused, hkind⟩

/-- Every script is accounted for. Notes are warnings and infos and stand in the order of
the scripts. A script that cannot be used has one warning and nothing else, and a script
with one warning and nothing else cannot be used unless it falls back on its text. A
script that is used has a warning exactly if nobody knows its kind, and behind it an info
exactly if an earlier script for its action is used too; so there are as many scripts in
use as handlers and infos. -/
theorem every_script_is_accounted_for (responders : Responders) (relation : Relation.Graph) :
    (∀ d ∈ (ofRelation responders relation).diagnostics,
      (d.severity = .warning ∨ d.severity = .info) ∧
        ∃ i < relation.scripts.length, d.location = some (placeOf i)) ∧
    ((ofRelation responders relation).diagnostics.Pairwise fun a b =>
      ∀ i j, a.location = some (placeOf i) → b.location = some (placeOf j) → i ≤ j) ∧
    (∀ i script, relation.scripts[i]? = some script →
      (resolved? responders script = none ↔
        ((ofRelation responders relation).warningsAt i).length = 1 ∧
          (ofRelation responders relation).infosAt i = [] ∧ ¬ FallsBack responders script) ∧
      ∀ action text, resolved? responders script = some (action, text) →
        ((ofRelation responders relation).warningsAt i ≠ [] ↔ UnknownKind responders script) ∧
        ((ofRelation responders relation).infosAt i ≠ [] ↔
          Defined responders (relation.scripts.take i) action) ∧
        (ofRelation responders relation).notesAt i =
          (ofRelation responders relation).warningsAt i ++
            (ofRelation responders relation).infosAt i) ∧
    (resolving responders relation).length =
      (ofRelation responders relation).handlers.size +
        ((ofRelation responders relation).diagnostics.filter
          fun d => d.severity = .info).length := by
  refine ⟨?_, diagnostics_pairwise responders relation.scripts, ?_,
    length_resolving responders relation.scripts⟩
  · intro d hd
    obtain ⟨hseverity, _, hlocation⟩ := mem_diagnostics hd
    exact ⟨hseverity, hlocation⟩
  intro i script h
  refine ⟨unused_iff_warned h, ?_⟩
  intro action text hused
  refine ⟨?_, infosAt_ne_nil_iff h hused, notesAt_eq_append h⟩
  have hwarned := @warningsAt_ne_nil_iff responders _ _ _ h
  rw [hused] at hwarned
  simpa using hwarned

/-- A second script for an action, of a kind that nobody knows, has its warning and then
the info that it takes the place of the first. -/
theorem every_script_is_accounted_for_twice :
    ((ofRelation Responders.builtin
      ⟨[.of "go" (.text "first"),
        .of "go" (.object [("kind", .text "toast"), ("msg", .text "second")])]⟩).infosAt 1 ≠ [] ↔
      Defined Responders.builtin [.of "go" (.text "first")] "go") ∧
    Defined Responders.builtin [.of "go" (.text "first")] "go" := by
  have hscript := (every_script_is_accounted_for Responders.builtin
    ⟨[.of "go" (.text "first"),
      .of "go" (.object [("kind", .text "toast"), ("msg", .text "second")])]⟩).2.2.1 1 _ rfl
  exact ⟨(hscript.2 "go" _ rfl).2.1, .of "go" (.text "first"), by simp, _, rfl⟩

/-- One warning and no info do not say that a script cannot be used: one of a kind that
nobody knows has them too, although its text is shown. -/
theorem warned_script_is_used :
    ¬ (resolved? Responders.builtin
        (.of "go" (.object [("kind", .text "toast"), ("msg", .text "Saved")])) = none ↔
      ((ofRelation Responders.builtin
        ⟨[.of "go" (.object [("kind", .text "toast"), ("msg", .text "Saved")])]⟩).warningsAt
          0).length = 1 ∧
      (ofRelation Responders.builtin
        ⟨[.of "go" (.object [("kind", .text "toast"), ("msg", .text "Saved")])]⟩).infosAt 0 =
          []) := by
  decide +kernel

end GioForge.Resolution
