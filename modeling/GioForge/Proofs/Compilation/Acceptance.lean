import GioForge.Proofs.Compilation.Translation
import GioForge.Proofs.Component.Acceptance
import GioForge.Proofs.Data.Table

/-!
Which documents compile, and the error for those that do not. The translators may be
registered in any order, under any tags and any number of times; the last one
registered under a tag counts, and a tag keeps the place of its first registration.
-/

namespace GioForge

/-- Built-in kinds with the tags they are registered under, in the order of registration. -/
abbrev Registrations := List (String × Builtin)

namespace Registrations

def translators (registrations : Registrations) : Translators :=
  Table.ofList (registrations.map fun r => (r.1, r.2.translator))

/-- The kind that was last registered under a tag. -/
def last? (registrations : Registrations) (tag : String) : Option Builtin :=
  (registrations.filter fun r => r.1 = tag).getLast?.map Prod.snd

/-- Every tag once, in the order of first registration. -/
def tags (registrations : Registrations) : List String :=
  (registrations.map Prod.fst).eraseDups

/-- The elements that can be compiled. -/
def Valid (registrations : Registrations) (e : Ui.Element) : Prop :=
  ∃ tag kind, e.Tagged tag ∧ registrations.last? tag = some kind ∧ kind.Accepts e

/-- The error for an element that cannot be compiled. The tag is looked at first, then
whether it is registered, then the fields. -/
inductive Rejected (registrations : Registrations) (index : Nat) (e : Ui.Element) :
    CompileError → Prop where
  | untagged (h : ∀ tag, ¬ e.Tagged tag) :
      Rejected registrations index e (.unprocessable index CompileError.untaggedReason)
  | unknown {tag : String} (htag : e.Tagged tag) (h : registrations.last? tag = none) :
      Rejected registrations index e (.unknownKind index tag registrations.tags)
  | malformed {tag field : String} {kind : Builtin} {fault : FieldFault} (htag : e.Tagged tag)
      (hkind : registrations.last? tag = some kind) (h : Builtin.Faulty e kind field fault) :
      Rejected registrations index e (.malformed index kind.name field fault.reason)

/-- Of several registrations of a tag the last one is found. -/
theorem get?_translators (registrations : Registrations) (tag : String) :
    registrations.translators.get? tag = (registrations.last? tag).map Builtin.translator := by
  unfold translators last?
  rw [Table.get?_ofList, List.filter_map, List.getLast?_map, Option.map_map, Option.map_map]
  rfl

/-- The known kinds are the tags in the order in which each was registered first. -/
theorem keys_translators (registrations : Registrations) :
    registrations.translators.keys = registrations.tags := by
  unfold translators tags
  rw [Table.keys_ofList, List.map_map]
  rfl

theorem instantiate_of_valid {registrations : Registrations} {e : Ui.Element}
    (h : registrations.Valid e) (index : Nat) :
    ∃ c, registrations.translators.instantiate index e = .ok c := by
  obtain ⟨tag, kind, htag, hkind, haccepts⟩ := h
  obtain ⟨c, hc⟩ := Builtin.translator_of_accepts haccepts index
  refine ⟨c, ?_⟩
  unfold Translators.instantiate
  simp only [(e.kind?_eq_some_iff tag).mpr htag, get?_translators, hkind, Option.map_some, hc]

theorem instantiate_of_rejected {registrations : Registrations} {index : Nat} {e : Ui.Element}
    {error : CompileError} (h : registrations.Rejected index e error) :
    registrations.translators.instantiate index e = .error error := by
  unfold Translators.instantiate
  cases h with
  | untagged h =>
      have hkind : e.kind? = none := by
        cases hsome : e.kind? with
        | none => rfl
        | some tag => exact absurd ((e.kind?_eq_some_iff tag).mp hsome) (h tag)
      simp only [hkind]
  | @unknown tag htag h =>
      simp only [(e.kind?_eq_some_iff tag).mpr htag, get?_translators, h, Option.map_none,
        keys_translators]
  | @malformed tag field kind fault htag hkind h =>
      simp only [(e.kind?_eq_some_iff tag).mpr htag, get?_translators, hkind, Option.map_some,
        Builtin.translator_of_faulty h]

/-- There is no third case, so the two together decide every element. -/
theorem valid_or_rejected (registrations : Registrations) (index : Nat) (e : Ui.Element) :
    registrations.Valid e ∨ ∃ error, registrations.Rejected index e error := by
  by_cases htagged : ∃ tag, e.Tagged tag
  · obtain ⟨tag, htag⟩ := htagged
    cases hkind : registrations.last? tag with
    | none => exact .inr ⟨_, .unknown htag hkind⟩
    | some kind =>
        rcases kind.accepts_or_faulty e with haccepts | ⟨field, fault, hfaulty⟩
        · exact .inl ⟨tag, kind, htag, hkind, haccepts⟩
        · exact .inr ⟨_, .malformed htag hkind hfaulty⟩
  · exact .inr ⟨_, .untagged (not_exists.mp htagged)⟩

theorem instantiate_ok_iff (registrations : Registrations) (index : Nat) (e : Ui.Element) :
    (∃ c, registrations.translators.instantiate index e = .ok c) ↔ registrations.Valid e := by
  constructor
  · rintro ⟨c, hc⟩
    rcases registrations.valid_or_rejected index e with hvalid | ⟨error, hrejected⟩
    · exact hvalid
    · rw [instantiate_of_rejected hrejected] at hc
      cases hc
  · intro h
    exact instantiate_of_valid h index

theorem instantiate_error_iff (registrations : Registrations) (index : Nat) (e : Ui.Element)
    (error : CompileError) :
    registrations.translators.instantiate index e = .error error ↔
      registrations.Rejected index e error := by
  constructor
  · intro h
    rcases registrations.valid_or_rejected index e with hvalid | ⟨error', hrejected⟩
    · obtain ⟨c, hc⟩ := instantiate_of_valid hvalid index
      rw [hc] at h
      cases h
    · have herror := instantiate_of_rejected hrejected
      rw [h] at herror
      obtain rfl := Except.error.inj herror
      exact hrejected
  · exact instantiate_of_rejected

theorem Rejected.index_eq {registrations : Registrations} {index : Nat} {e : Ui.Element}
    {error : CompileError} (h : registrations.Rejected index e error) : error.index = index := by
  cases h <;> rfl

end Registrations

namespace Compilation

open Registrations

/-- Window and handlers have no part in whether a document compiles. -/
theorem compose_ok_iff (translators : Translators) (ui : Ui.Graph) (handlers : Handlers) :
    (∃ c, compose translators ui handlers = .ok c) ↔
      ∃ placed, translate translators ui.elements = .ok placed := by
  constructor
  · rintro ⟨c, h⟩
    obtain ⟨placed, hplaced, _⟩ := ok_of_bind h
    exact ⟨placed, hplaced⟩
  · rintro ⟨placed, hplaced⟩
    unfold compose
    rw [hplaced]
    exact ⟨_, rfl⟩

/-- Composing fails only where an element cannot be translated. -/
theorem compose_error_iff (translators : Translators) (ui : Ui.Graph) (handlers : Handlers)
    (error : CompileError) :
    compose translators ui handlers = .error error ↔
      translate translators ui.elements = .error error := by
  unfold compose
  rw [error_bind_iff]
  constructor
  · rintro (h | ⟨_, _, hpure⟩)
    · exact h
    · cases hpure
  · exact .inl

/-- The error of the first element that cannot be compiled. -/
theorem compose_error_iff_first (registrations : Registrations) (ui : Ui.Graph)
    (handlers : Handlers) (error : CompileError) :
    compose registrations.translators ui handlers = .error error ↔
      ∃ e, ui.elements[error.index]? = some e ∧ registrations.Rejected error.index e error ∧
        ∀ j < error.index, ∀ d, ui.elements[j]? = some d → registrations.Valid d := by
  rw [compose_error_iff, translate_error_iff]
  constructor
  · rintro ⟨i, e, he, hfails, hbefore⟩
    have hrejected := (instantiate_error_iff _ _ _ _).mp hfails
    obtain rfl := hrejected.index_eq
    refine ⟨e, he, hrejected, ?_⟩
    intro j hj d hd
    exact (instantiate_ok_iff _ j d).mp (hbefore j hj d hd)
  · rintro ⟨e, he, hrejected, hbefore⟩
    refine ⟨error.index, e, he, instantiate_of_rejected hrejected, ?_⟩
    intro j hj d hd
    exact instantiate_of_valid (hbefore j hj d hd) j

end Compilation

open Compilation

/-- The tags are those of the registrations, each once and in the order of first
registration. -/
theorem Registrations.tags_spec (registrations : Registrations) :
    registrations.tags.Nodup ∧
      (∀ tag, tag ∈ registrations.tags ↔ ∃ kind, (tag, kind) ∈ registrations) ∧
      registrations.tags.Pairwise fun a b =>
        (registrations.map Prod.fst).idxOf a < (registrations.map Prod.fst).idxOf b := by
  have hcolumn : (registrations.map fun r => (r.1, r.2.translator)).map Prod.fst =
      registrations.map Prod.fst := by
    rw [List.map_map]
    rfl
  have horder := Table.keys_ofList_pairwise (registrations.map fun r => (r.1, r.2.translator))
  rw [hcolumn] at horder
  rw [← keys_translators]
  refine ⟨registrations.translators.nodup, ?_, horder⟩
  intro tag
  rw [translators, Table.mem_keys_ofList, hcolumn, List.mem_map]
  constructor
  · rintro ⟨⟨tag, kind⟩, hmem, rfl⟩
    exact ⟨kind, hmem⟩
  · rintro ⟨kind, hmem⟩
    exact ⟨(tag, kind), hmem, rfl⟩

/-- A document compiles exactly if all its elements are valid. Otherwise the error is
that of the first element that is not, and it stays the same whatever the window, the
handlers and the elements after that one are. An error about an unknown tag lists the
registered tags. -/
theorem compose_reports_first_fault (registrations : Registrations) (ui : Ui.Graph)
    (handlers : Handlers) :
    ((∃ c, compose registrations.translators ui handlers = .ok c) ↔
      ∀ e ∈ ui.elements, registrations.Valid e) ∧
    (∀ error, compose registrations.translators ui handlers = .error error ↔
      ∃ e, ui.elements[error.index]? = some e ∧ registrations.Rejected error.index e error ∧
        ∀ j < error.index, ∀ d, ui.elements[j]? = some d → registrations.Valid d) ∧
    (∀ error, compose registrations.translators ui handlers = .error error →
      ∀ (other : Ui.Graph) (others : Handlers),
        other.elements.take (error.index + 1) = ui.elements.take (error.index + 1) →
        compose registrations.translators other others = .error error) ∧
    (registrations.tags.Nodup ∧
      (∀ tag, tag ∈ registrations.tags ↔ ∃ kind, (tag, kind) ∈ registrations) ∧
      registrations.tags.Pairwise fun a b =>
        (registrations.map Prod.fst).idxOf a < (registrations.map Prod.fst).idxOf b) := by
  refine ⟨?_, compose_error_iff_first registrations ui handlers, ?_, registrations.tags_spec⟩
  · rw [compose_ok_iff, exists_translate_ok_iff]
    constructor
    · intro h e he
      obtain ⟨i, hi⟩ := List.mem_iff_getElem?.mp he
      exact (registrations.instantiate_ok_iff i e).mp (h i e hi)
    · intro h i e he
      exact Registrations.instantiate_of_valid (h e (List.mem_of_getElem? he)) i
  · intro error herror other others htake
    have hagree : ∀ j ≤ error.index, other.elements[j]? = ui.elements[j]? := by
      intro j hj
      have hget := congrArg (fun elements => elements[j]?) htake
      simpa [List.getElem?_take, Nat.lt_succ_of_le hj] using hget
    rw [compose_error_iff_first] at herror ⊢
    obtain ⟨e, he, hrejected, hbefore⟩ := herror
    refine ⟨e, (hagree _ (Nat.le_refl _)).trans he, hrejected, ?_⟩
    intro j hj d hd
    exact hbefore j hj d ((hagree j (Nat.le_of_lt hj)).symm.trans hd)

/-- The tag `text` stands for headings after its second registration and keeps its place
in the list of known tags; a faulty element after the unknown one changes nothing. -/
theorem compose_reports_first_fault_registered_twice :
    compose (Registrations.translators [("text", .text), ("field", .input), ("text", .heading)])
      { elements := [(Ui.Element.ofKind "text").withValue "Title"
          |>.withField "level" (.number (.natural 2)), .ofKind "slider"] } .empty =
        .error (.unknownKind 1 "slider" ["text", "field"]) ∧
    compose (Registrations.translators [("text", .text), ("field", .input), ("text", .heading)])
      { window := some { title := some "Other" }
        elements := [(Ui.Element.ofKind "text").withValue "Title"
          |>.withField "level" (.number (.natural 2)), .ofKind "slider", .ofKind ""] }
        (Table.empty.insert "go" "") =
          .error (.unknownKind 1 "slider" ["text", "field"]) :=
  ⟨rfl, (compose_reports_first_fault
    [("text", .text), ("field", .input), ("text", .heading)]
    { elements := [(Ui.Element.ofKind "text").withValue "Title"
        |>.withField "level" (.number (.natural 2)), .ofKind "slider"] } .empty).2.2.1
      _ rfl _ _ rfl⟩

end GioForge
