import GioForge.Proofs.Data.Table
import GioForge.Resolution

/-!
Which script decides what an action does. Taking a script either leaves the
handlers alone or inserts one, so the handlers of a document are the table made
from its usable scripts in order. A later usable script for the same action
replaces the text of an earlier one and keeps its place; a script that cannot be
used changes nothing, wherever it stands.
-/

namespace GioForge.Resolution

/-- The text a response comes to. A response of a kind that nobody knows comes to
the display of its free text, if it has any. -/
def fragment? (responders : Responders) (response : Response) : Option String :=
  match responders.get? response.kind with
  | some responder => responder response
  | none => response.freeText?.map Response.setMessage

/-- The action and the text of a script, if the script can be used. -/
def resolved? (responders : Responders) (script : Relation.Script) :
    Option (String × String) := do
  let action ← script.action?
  let response ← script.response.bind Response.ofValue?
  let text ← fragment? responders response
  return (action, text)

/-- What the usable scripts come to, in the order of the document. -/
def resolving (responders : Responders) (relation : Relation.Graph) :
    List (String × String) :=
  relation.scripts.filterMap (resolved? responders)

/-- The text that is dispatched is that of the responder or, failing that, the free text. -/
theorem dispatch_text (responders : Responders) (response : Response)
    (action place : String) :
    (dispatch responders response action place).1 = fragment? responders response := by
  unfold dispatch fragment?
  cases hkind : responders.get? response.kind with
  | some responder => cases htext : responder response <;> simp [htext]
  | none => cases hfree : response.freeText? <;> simp [hfree, Response.showText]

/-- The place of a script only matters to the warning about it. -/
theorem outcome_handler (responders : Responders) (script : Relation.Script)
    (place : String) :
    (outcome responders script place).1 = resolved? responders script := by
  unfold outcome resolved?
  cases haction : script.action? with
  | none => rfl
  | some action =>
      cases hresponse : script.response.bind Response.ofValue? with
      | none => rfl
      | some response =>
          simp only [Option.bind_eq_bind, Option.bind_some,
            ← dispatch_text responders response action place]
          obtain ⟨text, note⟩ := dispatch responders response action place
          cases text <;> rfl

/-- One script inserts what it resolves to, or nothing. -/
theorem handlers_step (responders : Responders) (r : Resolution)
    (script : Relation.Script) (index : Nat) :
    (step responders r script index).handlers =
      match resolved? responders script with
      | none => r.handlers
      | some (action, text) => r.handlers.insert action text := by
  rw [← outcome_handler responders script (placeOf index)]
  simp only [step]
  obtain ⟨handler, note⟩ := outcome responders script (placeOf index)
  cases handler <;> rfl

/-- Taking scripts one after the other inserts the usable ones one after the
other, whatever was there before. -/
theorem handlers_foldl_step (responders : Responders)
    (scripts : List (Relation.Script × Nat)) (r : Resolution) :
    (scripts.foldl (fun r script => step responders r script.1 script.2) r).handlers =
      (scripts.filterMap fun script => resolved? responders script.1).foldl
        (fun table pair => table.insert pair.1 pair.2) r.handlers := by
  induction scripts generalizing r with
  | nil => rfl
  | cons script rest ih =>
      have hstep := handlers_step responders r script.1 script.2
      rw [List.foldl_cons, ih, hstep, List.filterMap_cons]
      cases resolved? responders script.1 <;> rfl

/-- The handlers are made from the scripts that resolve, in order. -/
theorem handlers_ofRelation (responders : Responders) (relation : Relation.Graph) :
    (ofRelation responders relation).handlers =
      Table.ofList (resolving responders relation) := by
  unfold ofRelation Table.ofList resolving
  rw [handlers_foldl_step]
  congr 1
  conv_rhs => rw [← List.zipIdx_map_fst 0 relation.scripts]
  rw [List.filterMap_map]
  rfl

/-- The handlers of a document have the actions of its usable scripts, each once
and in the order of the first usable script for it, and each with the text of the
last usable script for it. A script that cannot be used might as well not be
there. -/
theorem last_usable_script_wins (responders : Responders) (relation : Relation.Graph) :
    (∀ action, action ∈ (ofRelation responders relation).handlers.keys ↔
      ∃ script ∈ relation.scripts, ∃ text,
        resolved? responders script = some (action, text)) ∧
    (ofRelation responders relation).handlers.keys.Nodup ∧
    ((ofRelation responders relation).handlers.keys.Pairwise fun a b =>
      ((resolving responders relation).map Prod.fst).idxOf a <
        ((resolving responders relation).map Prod.fst).idxOf b) ∧
    (∀ action, (ofRelation responders relation).handlers.get? action =
      ((resolving responders relation).filter fun pair => pair.1 = action).getLast?.map
        Prod.snd) ∧
    (∀ before script after, relation.scripts = before ++ script :: after →
      resolved? responders script = none →
      (ofRelation responders ⟨before ++ after⟩).handlers =
        (ofRelation responders relation).handlers) := by
  simp only [handlers_ofRelation]
  refine ⟨?_, Table.nodup _, Table.keys_ofList_pairwise _, Table.get?_ofList _, ?_⟩
  · intro action
    rw [Table.mem_keys_ofList]
    constructor
    · intro hmem
      obtain ⟨⟨a, text⟩, hpair, rfl⟩ := List.mem_map.mp hmem
      obtain ⟨script, hscript, hresolved⟩ := List.mem_filterMap.mp hpair
      exact ⟨script, hscript, text, hresolved⟩
    · rintro ⟨script, hscript, text, hresolved⟩
      exact List.mem_map.mpr
        ⟨(action, text), List.mem_filterMap.mpr ⟨script, hscript, hresolved⟩, rfl⟩
  · intro before script after hscripts hunusable
    simp [resolving, hscripts, hunusable]

/-- A response that is a number cannot be used and does not undo the text before it. -/
theorem last_usable_script_wins_over_number :
    resolved? Responders.builtin (.of "go" (.number (.natural 42))) = none ∧
    (ofRelation Responders.builtin ⟨[.of "go" (.text "kept")]⟩).handlers =
      (ofRelation Responders.builtin
        ⟨[.of "go" (.text "kept"), .of "go" (.number (.natural 42))]⟩).handlers :=
  ⟨rfl, (last_usable_script_wins Responders.builtin
    ⟨[.of "go" (.text "kept"), .of "go" (.number (.natural 42))]⟩).2.2.2.2
      [.of "go" (.text "kept")] _ [] rfl rfl⟩

end GioForge.Resolution
