import GioForge.Proofs.Compilation.HandlerUse
import GioForge.Proofs.Resolution.LastWins
import Mathlib.Data.List.Nodup

/-!
Scripts for different actions may change places. What a script comes to depends on the
script alone, and the handler of an action is that of the last usable script for it, so
only the order among the scripts for one action counts. Moving others past them changes
the order in which the handlers are listed, and a compilation does not look at that.
-/

namespace GioForge

namespace Relation

/-- The same scripts in another order, in which the scripts for one action have kept theirs.
Scripts without an action may stand anywhere. -/
structure Graph.Rearranged (a b : Graph) : Prop where
  perm : a.scripts.Perm b.scripts
  order : ∀ action, (a.scripts.filter fun s => s.action? = some action) =
    b.scripts.filter fun s => s.action? = some action

end Relation

namespace Resolution

theorem action?_of_resolved? {responders : Responders} {script : Relation.Script}
    {action text : String} (h : resolved? responders script = some (action, text)) :
    script.action? = some action := by
  obtain ⟨found, hfound, h⟩ := Option.bind_eq_some_iff.mp h
  obtain ⟨response, _, h⟩ := Option.bind_eq_some_iff.mp h
  obtain ⟨fragment, _, h⟩ := Option.bind_eq_some_iff.mp h
  obtain ⟨rfl, rfl⟩ := Prod.mk.inj (Option.some.inj h)
  exact hfound

/-- What the usable scripts for one action come to can be told from the scripts for it. -/
theorem filter_resolving (responders : Responders) (relation : Relation.Graph)
    (action : String) :
    ((resolving responders relation).filter fun pair => pair.1 = action) =
      (relation.scripts.filter fun s => s.action? = some action).filterMap
        (resolved? responders) := by
  unfold resolving
  rw [List.filter_filterMap, List.filterMap_filter]
  refine List.filterMap_congr ?_
  intro script _
  cases hresolved : resolved? responders script with
  | none => simp
  | some pair =>
      obtain ⟨found, text⟩ := pair
      rw [action?_of_resolved? hresolved]
      by_cases heq : found = action
      · simp [heq, Option.filter]
      · simp [heq, Option.filter]

/-- An action has the same handler, since its own scripts keep their order. -/
theorem get?_handlers_rearranged {a b : Relation.Graph} (h : a.Rearranged b)
    (responders : Responders) (action : String) :
    (ofRelation responders a).handlers.get? action =
      (ofRelation responders b).handlers.get? action := by
  rw [handlers_ofRelation, handlers_ofRelation, Table.get?_ofList, Table.get?_ofList,
    filter_resolving, filter_resolving, h.order action]

end Resolution

/-- Tables with the same value under every key have the same entries, up to their order. -/
theorem Table.perm_of_get? {κ α : Type} [DecidableEq κ] {a b : Table κ α}
    (h : ∀ key, a.get? key = b.get? key) : a.entries.Perm b.entries := by
  refine (List.perm_ext_iff_of_nodup (List.Nodup.of_map _ a.nodup)
    (List.Nodup.of_map _ b.nodup)).mpr ?_
  rintro ⟨key, value⟩
  rw [mem_entries_iff, mem_entries_iff, h key]

/-- The component makes the same of handlers in whatever order they are listed. -/
def Component.IgnoresOrder (c : Component) : Prop :=
  ∀ a b : Handlers, (∀ action, a.get? action = b.get? action) →
    c.render (some a) = c.render (some b)

/-- Components that render as they do by default look handlers up and do not go through them. -/
theorem Component.Standard.ignoresOrder {c : Component} (hc : c.Standard) : c.IgnoresOrder :=
  fun _ _ h => hc.render_congr fun action _ _ => h action

/-- Independent scripts commute. If the scripts are put into another order, in which those
for one action keep theirs, the same handlers result up to the order in which they are
listed, and every user interface compiles to the same error, or to the same program and
notes. With other translators than the built-in ones this takes components that do not look at
the order of the handlers. -/
theorem independent_scripts_commute (translators : Translators) (responders : Responders)
    (ui : Ui.Graph) {a b : Relation.Graph} (h : a.Rearranged b) :
    (Resolution.ofRelation responders a).handlers.entries.Perm
      (Resolution.ofRelation responders b).handlers.entries ∧
    ((∀ index e c, translators.instantiate index e = .ok c → c.IgnoresOrder) →
      Compilation.compose translators ui (Resolution.ofRelation responders a).handlers =
        Compilation.compose translators ui (Resolution.ofRelation responders b).handlers) ∧
    Compilation.compose Translators.builtin ui (resolveActions a) =
      Compilation.compose Translators.builtin ui (resolveActions b) := by
  have hperm := fun responders =>
    Table.perm_of_get? (Resolution.get?_handlers_rearranged h responders)
  have hcompose : ∀ (translators : Translators) (responders : Responders),
      (∀ index e c, translators.instantiate index e = .ok c → c.IgnoresOrder) →
      Compilation.compose translators ui (Resolution.ofRelation responders a).handlers =
        Compilation.compose translators ui (Resolution.ofRelation responders b).handlers := by
    intro translators responders hcomponents
    have hget := Resolution.get?_handlers_rearranged h responders
    refine Compilation.compose_congr (hperm responders).isEmpty_eq ?_
    intro index e c _ hc
    exact ⟨hcomponents index e c hc _ _ hget, fun action _ _ => hget action⟩
  exact ⟨hperm responders, hcompose translators responders,
    hcompose Translators.builtin Responders.builtin fun _ _ _ hc =>
      (Translators.standard_builtin hc).ignoresOrder⟩

/-- Two scripts for one action with one for another between them, which moves to the
front, behind a script without an action. -/
theorem independent_scripts_commute_past_another :
    (resolveActions ⟨[.of "go" (.text "first"), .of "stop" (.text "halt"),
        .of "go" (.text "second"), {}]⟩).keys = ["go", "stop"] ∧
    (resolveActions ⟨[{}, .of "stop" (.text "halt"), .of "go" (.text "first"),
        .of "go" (.text "second")]⟩).keys = ["stop", "go"] ∧
    Compilation.compose Translators.builtin
        { elements := [(Ui.Element.ofKind "button").withValue "Go" |>.withAction "go"] }
        (resolveActions ⟨[.of "go" (.text "first"), .of "stop" (.text "halt"),
          .of "go" (.text "second"), {}]⟩) =
      Compilation.compose Translators.builtin
        { elements := [(Ui.Element.ofKind "button").withValue "Go" |>.withAction "go"] }
        (resolveActions ⟨[{}, .of "stop" (.text "halt"), .of "go" (.text "first"),
          .of "go" (.text "second")]⟩) := by
  have hrearranged : Relation.Graph.Rearranged
      ⟨[.of "go" (.text "first"), .of "stop" (.text "halt"), .of "go" (.text "second"), {}]⟩
      ⟨[{}, .of "stop" (.text "halt"), .of "go" (.text "first"), .of "go" (.text "second")]⟩ := by
    constructor
    · exact (List.perm_append_singleton _ [_, _, _]).trans ((List.Perm.swap _ _ _).cons _)
    · intro action
      have hgo : ∀ response, (Relation.Script.of "go" response).action? = some "go" := fun _ => rfl
      have hstop : (Relation.Script.of "stop" (.text "halt")).action? = some "stop" := rfl
      have hnone : (Relation.Script.mk none none).action? = none := rfl
      by_cases haction : "go" = action
      · subst haction
        rfl
      · simp [List.filter_cons, hgo, hstop, hnone, haction]
  exact ⟨by decide +kernel, by decide +kernel,
    (independent_scripts_commute Translators.builtin Responders.builtin _ hrearranged).2.2⟩

end GioForge
