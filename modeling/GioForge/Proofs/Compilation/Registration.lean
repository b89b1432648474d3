import GioForge.Proofs.Compilation.Translation
import GioForge.Proofs.Data.Table

/-!
Registering a kind. Translators are looked up by the kinds of elements and responders by the
kinds of responses, so what is registered for a kind a document does not use, new or in the
place of another, is never run on it. The kinds that are registered are looked at as a whole
in one place only: an error about a kind that is not known lists them.
-/

namespace GioForge

/-- The results are the same value, or errors that are alike. -/
inductive SameUpTo {ε α : Type} (Alike : ε → ε → Prop) : Except ε α → Except ε α → Prop
  | ok (value : α) : SameUpTo Alike (.ok value) (.ok value)
  | error {e other : ε} (h : Alike e other) : SameUpTo Alike (.error e) (.error other)

namespace SameUpTo

variable {ε α β : Type} {Alike : ε → ε → Prop}

theorem refl (halike : ∀ e, Alike e e) (result : Except ε α) : SameUpTo Alike result result := by
  cases result with
  | ok value => exact .ok value
  | error e => exact .error (halike e)

/-- Results that are alike stay so through steps that keep them alike. -/
theorem bind {first other : Except ε α} {next after : α → Except ε β}
    (h : SameUpTo Alike first other)
    (hnext : ∀ value, SameUpTo Alike (next value) (after value)) :
    SameUpTo Alike (first >>= next) (other >>= after) := by
  cases h with
  | ok value => exact hnext value
  | error halike => exact .error halike

/-- A traversal fails with the error of its first element that fails, so it is the same up to
errors if its steps are. -/
theorem mapM {f g : α → Except ε β} {xs : List α} (h : ∀ x ∈ xs, SameUpTo Alike (f x) (g x)) :
    SameUpTo Alike (xs.mapM f) (xs.mapM g) := by
  induction xs with
  | nil => exact .ok []
  | cons x rest ih =>
      obtain ⟨hx, hrest⟩ := List.forall_mem_cons.mp h
      rw [List.mapM_cons, List.mapM_cons]
      exact hx.bind fun y => (ih hrest).bind fun ys => .ok (y :: ys)

end SameUpTo

/-- The errors are the same, or both are about the same kind that is not known and the other lists
one more known kind, which is new and comes last. -/
inductive CompileError.SameButFor (known : List String) (tag : String) :
    CompileError → CompileError → Prop
  | same (e : CompileError) : SameButFor known tag e e
  | listed (index : Nat) (kind : String) (hnew : tag ∉ known) :
      SameButFor known tag (.unknownKind index kind known)
        (.unknownKind index kind (known ++ [tag]))

/-- The list of known kinds is all that a fault about an unknown kind can have changed in. -/
theorem CompileError.sameButFor_keys_insert (translators : Translators) (tag : String)
    (translator : Translator) (index : Nat) (kind : String) :
    SameButFor translators.keys tag (.unknownKind index kind translators.keys)
      (.unknownKind index kind (translators.insert tag translator).keys) := by
  rw [Table.keys_insert]
  split
  · exact .same _
  · next hnew => exact .listed index kind hnew

/-- An element of another kind is translated as before. -/
theorem Translators.instantiate_insert (translators : Translators) {tag : String}
    (translator : Translator) (index : Nat) {e : Ui.Element} (h : e.kind? ≠ some tag) :
    SameUpTo (CompileError.SameButFor translators.keys tag) (translators.instantiate index e)
      (instantiate (translators.insert tag translator) index e) := by
  unfold instantiate
  cases hkind : e.kind? with
  | none => exact .error (.same _)
  | some kind =>
      have hne : kind ≠ tag := fun heq => h (heq ▸ hkind)
      dsimp only
      rw [Table.get?_insert, if_neg hne]
      cases translators.get? kind with
      | none => exact .error (CompileError.sameButFor_keys_insert translators tag translator ..)
      | some known => exact .refl .same (known index e)

namespace Compilation

/-- A registration matters to the elements of its tag only. -/
theorem compose_insert (translators : Translators) {tag : String} (translator : Translator)
    {ui : Ui.Graph} (handlers : Handlers) (h : ∀ e ∈ ui.elements, e.kind? ≠ some tag) :
    SameUpTo (CompileError.SameButFor translators.keys tag) (compose translators ui handlers)
      (compose (translators.insert tag translator) ui handlers) := by
  have htranslate : SameUpTo (CompileError.SameButFor translators.keys tag)
      (translate translators ui.elements)
      (translate (translators.insert tag translator) ui.elements) := by
    refine SameUpTo.mapM fun p hp => ?_
    have hother := h p.1 (List.fst_mem_of_mem_zipIdx hp)
    exact (translators.instantiate_insert translator p.2 hother).bind fun c => .ok _
  exact htranslate.bind fun placed => .ok _

end Compilation

namespace Resolution

/-- Scripts are handled alike by responders that agree on the kind of their response. -/
theorem outcome_congr {responders others : Responders} {script : Relation.Script}
    (h : ∀ response, script.response.bind Response.ofValue? = some response →
      others.get? response.kind = responders.get? response.kind) (place : String) :
    outcome others script place = outcome responders script place := by
  unfold outcome
  cases script.action? with
  | none => rfl
  | some action =>
      cases hresponse : script.response.bind Response.ofValue? with
      | none => rfl
      | some response =>
          dsimp only
          unfold dispatch
          rw [h response hresponse]

/-- Scripts are resolved by the responders of their kinds and by no others. -/
theorem ofRelation_congr {responders others : Responders} {relation : Relation.Graph}
    (h : ∀ script ∈ relation.scripts, ∀ response,
      script.response.bind Response.ofValue? = some response →
        others.get? response.kind = responders.get? response.kind) :
    ofRelation others relation = ofRelation responders relation := by
  refine List.foldl_ext _ _ _ fun r p hp => ?_
  unfold step
  dsimp only
  rw [outcome_congr (h p.1 (List.fst_mem_of_mem_zipIdx hp))]

end Resolution

open Compilation Resolution in
/-- Registering a kind changes nothing for documents that do not use it, whether it is new or was
registered before: a page compiles to the same program with the same notes or fails with the same
error, but for the list of known kinds, and scripts come to the same handlers with the same notes.
-/
theorem registration_is_conservative :
    (∀ (translators : Translators) (tag : String) (translator : Translator) (ui : Ui.Graph)
        (handlers : Handlers), (∀ e ∈ ui.elements, e.kind? ≠ some tag) →
      SameUpTo (CompileError.SameButFor translators.keys tag) (compose translators ui handlers)
        (compose (translators.insert tag translator) ui handlers)) ∧
    ∀ (responders : Responders) (tag : String) (responder : Responder) (relation : Relation.Graph),
      (∀ script ∈ relation.scripts, ∀ response,
        script.response.bind Response.ofValue? = some response → response.kind ≠ tag) →
      ofRelation (responders.insert tag responder) relation = ofRelation responders relation := by
  constructor
  · intro translators tag translator ui handlers h
    exact compose_insert translators translator handlers h
  · intro responders tag responder relation h
    refine ofRelation_congr fun script hscript response hresponse => ?_
    rw [Table.get?_insert, if_neg (h script hscript response hresponse)]

/-- A page with a kind that is not known. -/
def gaugePage : Ui.Graph :=
  { elements := [(Ui.Element.ofKind "text").withValue "Hi", Ui.Element.ofKind "gauge"] }

/-- A translator with a way of its own to lay out what it makes, and with a complaint of its own. -/
def slider : Translator := fun index e =>
  match e.value? with
  | none => .error (.malformed index "slider" "value" "must be within its bounds")
  | some _ => .ok {
      kind := "slider"
      body := []
      render := fun handlers =>
        [.line ("return slider(" ++ Text.decimalText ((handlers.map Table.size).getD 0) ++ ")")] }

/-- A script whose response is of a kind that is not known and has a text to fall back to. -/
def openScript : Relation.Graph :=
  ⟨[.of "go" (.object [("kind", .text "open"), ("text", .text "Hi")])]⟩

open Compilation Resolution in
/-- The translator is new and is listed in the error. The responder takes the place of the one that
shows texts, which does not matter to what is shown for kinds that are not known. -/
theorem registration_is_conservative_for_unknown_kinds :
    (∀ e ∈ gaugePage.elements, e.kind? ≠ some "slider") ∧
    SameUpTo (CompileError.SameButFor Translators.builtin.keys "slider")
      (compose Translators.builtin gaugePage .empty)
      (compose (Translators.builtin.insert "slider" slider) gaugePage .empty) ∧
    compose (Translators.builtin.insert "slider" slider) gaugePage .empty =
      .error (.unknownKind 1 "gauge" ["text", "heading", "button", "input", "slider"]) ∧
    ofRelation (Responders.builtin.insert "show_text" fun _ => none) openScript =
      ofRelation Responders.builtin openScript ∧
    (resolveActions openScript).keys = ["go"] := by
  obtain ⟨hpages, hscripts⟩ := registration_is_conservative
  have hkinds : ∀ e ∈ gaugePage.elements, e.kind? ≠ some "slider" := by decide
  refine ⟨hkinds, hpages _ _ _ _ _ hkinds, rfl, hscripts _ _ _ _ ?_, rfl⟩
  refine List.forall_mem_singleton.mpr fun response hresponse => ?_
  obtain rfl := Option.some.inj hresponse
  decide

end GioForge
