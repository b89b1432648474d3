import GioForge.Proofs.Compilation.Acceptance

/-!
Documents in canonical form. Much can be written in several ways: a kind under either of
two keys, a size in three forms, a response as a text alone, and defaults written out or
left open. The canonical form of a document says each of these things in one way and
leaves out what would not be looked at. It comes to the same handlers, the same program
and the same notes or error, since every part of the compiler reads a document through
the accessors that see no difference.
-/

namespace GioForge

namespace Ui

def Size.canonical (s : Size) : Size :=
  .named s.dimensions.1 s.dimensions.2

/-- The window without what counts as left open, and with its sizes by name. -/
def WindowSpec.canonical (spec : WindowSpec) : WindowSpec :=
  { title := spec.title.filter fun t => !Text.isBlankText t
    width := spec.width.filter (· > 0)
    height := spec.height.filter (· > 0)
    minSize := spec.minSize.map Size.canonical
    maxSize := spec.maxSize.map Size.canonical
    fullscreen := spec.fullscreen.filter id
    icon := spec.icon }

/-- The element with its kind under one key, without null as its value and without an
action that is none. -/
def Element.canonical (e : Element) : Element :=
  { tag := e.kind?
    legacyTag := none
    rawValue := e.value?
    rawAction := e.action?.map Value.text
    fields := e.fields }

def Graph.canonical (ui : Graph) : Graph :=
  { page := ui.page
    window := ui.window.map WindowSpec.canonical
    elements := ui.elements.map Element.canonical }

structure WindowSpec.IsCanonical (spec : WindowSpec) : Prop where
  title : ∀ t, spec.title = some t → Text.isBlankText t = false
  width : spec.width ≠ some 0
  height : spec.height ≠ some 0
  minSize : ∀ s, spec.minSize = some s → ∃ width height, s = .named width height
  maxSize : ∀ s, spec.maxSize = some s → ∃ width height, s = .named width height
  fullscreen : spec.fullscreen ≠ some false

structure Element.IsCanonical (e : Element) : Prop where
  tag : ∀ t, e.tag = some t → Text.isBlankText t = false
  legacyTag : e.legacyTag = none
  value : e.rawValue ≠ some .null
  action : ∀ v, e.rawAction = some v → ∃ id, v = .text id ∧ id ≠ ""

structure Graph.IsCanonical (ui : Graph) : Prop where
  window : ∀ spec, ui.window = some spec → spec.IsCanonical
  elements : ∀ e ∈ ui.elements, e.IsCanonical

end Ui

namespace Relation

/-- The response as an object with its kind under one key: a text is one to be shown, and
what is neither a text nor an object is no response. -/
def canonicalResponse? : Value → Option Value
  | .text message =>
      some (.object [("kind", .text defaultResponseKind), ("msg", .text message)])
  | .object entries =>
      let fields : Fields := entries
      let kind := (Response.usableTag? fields "kind" <|> Response.usableTag? fields "type").getD
        defaultResponseKind
      some (.object (((fields.erase "kind").erase "type").insert "kind" (.text kind)))
  | _ => none

def Script.canonical (s : Script) : Script :=
  { rawAction := s.action?.map Value.text
    response := s.response.bind canonicalResponse? }

def Graph.canonical (relation : Graph) : Graph :=
  ⟨relation.scripts.map Script.canonical⟩

structure Script.IsCanonical (s : Script) : Prop where
  action : ∀ v, s.rawAction = some v → ∃ id, v = .text id ∧ id ≠ ""
  response : ∀ v, s.response = some v → ∃ (fields : Fields) (kind : String), v = .object fields ∧
    fields.get? "kind" = some (.text kind) ∧ Text.isBlankText kind = false ∧
    fields.get? "type" = none

def Graph.IsCanonical (relation : Graph) : Prop :=
  ∀ s ∈ relation.scripts, s.IsCanonical

end Relation

/-- A text that is not empty is kept as an action, and all else is left out. -/
theorem filter_text_of_map (action : Option String) (h : ∀ id, action = some id → id ≠ "") :
    ((action.map Value.text).bind Value.text?).filter (fun id => !id.isEmpty) = action := by
  cases action with
  | none => rfl
  | some id => simp [Value.text?, Option.filter, h id rfl]

namespace Ui.Element

theorem action?_ne_empty {e : Element} {id : String} (h : e.action? = some id) : id ≠ "" := by
  unfold action? at h
  simpa using (Option.filter_eq_some_iff.mp h).2

/-- Dropping an identity that is no text leaves the usable one, or none. -/
theorem action?_canonical (e : Element) : e.canonical.action? = e.action? :=
  filter_text_of_map e.action? fun _ => action?_ne_empty

theorem value?_canonical (e : Element) : e.canonical.value? = e.value? := by
  simp [canonical, value?, Option.filter_filter]

theorem not_isBlankText_kind? {e : Element} {tag : String} (h : e.kind? = some tag) :
    Text.isBlankText tag = false := by
  cases (e.kind?_eq_some_iff tag).mp h with
  | tag _ hblank => exact hblank
  | legacy _ _ hblank => exact hblank

theorem kind?_canonical (e : Element) : e.canonical.kind? = e.kind? := by
  have hkind : e.canonical.kind? = (usableTag e.kind? <|> usableTag none) := rfl
  rw [hkind]
  cases htag : e.kind? with
  | none => rfl
  | some tag =>
      rw [(usableTag_eq_some_iff _ _).mpr ⟨rfl, not_isBlankText_kind? htag⟩]
      rfl

theorem isCanonical_canonical (e : Element) : e.canonical.IsCanonical where
  tag _ := not_isBlankText_kind?
  legacyTag := rfl
  value h := by
    have hnull := (Option.filter_eq_some_iff.mp h).2
    simp [Value.isNull] at hnull
  action v h := by
    obtain ⟨id, hid, rfl⟩ := Option.map_eq_some_iff.mp h
    exact ⟨id, rfl, action?_ne_empty hid⟩

end Ui.Element

/-- Titles and sizes that are dropped are the ones no option is made from. -/
theorem Window.ofSpec_canonical (spec : Option Ui.WindowSpec) :
    Window.ofSpec (spec.map Ui.WindowSpec.canonical) = Window.ofSpec spec := by
  cases spec with
  | none => rfl
  | some spec =>
      have hfullscreen : spec.fullscreen.filter id = some true ↔ spec.fullscreen = some true := by
        rw [Option.filter_eq_some_iff]
        simp
      simp only [Window.ofSpec, Option.map_some, Option.getD_some, Ui.WindowSpec.canonical,
        Option.filter_filter, Bool.and_self, Option.map_map, hfullscreen]
      rfl

theorem Ui.WindowSpec.isCanonical_canonical (spec : WindowSpec) : spec.canonical.IsCanonical where
  title t h := by simpa using (Option.filter_eq_some_iff.mp h).2
  width h := by simpa using (Option.filter_eq_some_iff.mp h).2
  height h := by simpa using (Option.filter_eq_some_iff.mp h).2
  minSize s h := by
    obtain ⟨size, _, rfl⟩ := Option.map_eq_some_iff.mp h
    exact ⟨_, _, rfl⟩
  maxSize s h := by
    obtain ⟨size, _, rfl⟩ := Option.map_eq_some_iff.mp h
    exact ⟨_, _, rfl⟩
  fullscreen h := by simpa using (Option.filter_eq_some_iff.mp h).2

theorem Fields.get?_erase (fields : Fields) (name n : String) :
    (fields.erase name).get? n = if n = name then none else fields.get? n := by
  unfold erase get?
  induction fields with
  | nil => simp
  | cons field rest ih =>
      obtain ⟨m, v⟩ := field
      by_cases hm : m = name
      · subst hm
        by_cases hn : n = m
        · simpa [hn] using ih
        · simpa [hn, List.lookup_cons, beq_eq_false_iff_ne.mpr hn] using ih
      · by_cases hn : n = m
        · subst hn
          simp [hm]
        · simpa [hm, List.lookup_cons, beq_eq_false_iff_ne.mpr hn] using ih

/-- What is put under a name goes when the name goes. -/
theorem Fields.erase_insert (fields : Fields) (name : String) (value : Value) :
    (fields.insert name value).erase name = fields.erase name := by
  unfold erase
  induction fields with
  | nil => simp [insert]
  | cons field rest ih =>
      obtain ⟨n, v⟩ := field
      unfold insert
      split_ifs with hlt heq
      · simp
      · simp [heq]
      · rw [List.filter_cons, List.filter_cons, ih]

theorem Fields.erase_erase_comm (fields : Fields) (a b : String) :
    (fields.erase a).erase b = (fields.erase b).erase a :=
  List.filter_comm _ _ _

theorem Fields.erase_erase_self (fields : Fields) (name : String) :
    (fields.erase name).erase name = fields.erase name := by
  simp [erase]

namespace Response

def kindOf (fields : Fields) : String :=
  (usableTag? fields "kind" <|> usableTag? fields "type").getD defaultResponseKind

theorem usableTag?_eq_some {fields : Fields} {name tag : String}
    (h : usableTag? fields name = some tag) : Text.isBlankText tag = false := by
  simpa using (Option.filter_eq_some_iff.mp h).2

theorem not_isBlankText_kindOf (fields : Fields) : Text.isBlankText (kindOf fields) = false := by
  unfold kindOf
  cases hkind : usableTag? fields "kind" with
  | some tag => exact usableTag?_eq_some hkind
  | none =>
      cases htype : usableTag? fields "type" with
      | some tag => exact usableTag?_eq_some htype
      | none => decide +kernel

/-- A tag that is not blank decides the kind, whatever else is there. -/
theorem kindOf_insert {kind : String} (h : Text.isBlankText kind = false) (fields : Fields) :
    kindOf (fields.insert "kind" (.text kind)) = kind := by
  have htag : usableTag? (fields.insert "kind" (.text kind)) "kind" = some kind := by
    simp [usableTag?, Fields.get?_insert, Value.text?, Option.filter, h]
  simp [kindOf, htag]

/-- An object is a response of its kind with the entries that are not the tag. -/
theorem ofValue?_object (fields : Fields) :
    ofValue? (.object fields) = some ⟨kindOf fields, (fields.erase "kind").erase "type"⟩ := rfl

theorem ofValue?_canonicalResponse? (v : Value) :
    (Relation.canonicalResponse? v).bind ofValue? = ofValue? v := by
  cases v with
  | object fields =>
      have hcanonical : Relation.canonicalResponse? (.object fields) =
          some (.object (((Fields.erase fields "kind").erase "type").insert "kind"
            (.text (kindOf fields)))) := rfl
      rw [hcanonical, Option.bind_some, ofValue?_object, ofValue?_object,
        kindOf_insert (not_isBlankText_kindOf fields), Fields.erase_insert,
        Fields.erase_erase_comm (Fields.erase fields "kind"), Fields.erase_erase_self,
        Fields.erase_erase_self]
  | text message => rfl
  | _ => rfl

end Response

namespace Relation.Script

theorem action?_ne_empty {s : Script} {id : String} (h : s.action? = some id) : id ≠ "" := by
  unfold action? at h
  simpa using (Option.filter_eq_some_iff.mp h).2

theorem action?_canonical (s : Script) : s.canonical.action? = s.action? :=
  filter_text_of_map s.action? fun _ => action?_ne_empty

theorem response_canonical (s : Script) :
    s.canonical.response.bind Response.ofValue? = s.response.bind Response.ofValue? := by
  unfold canonical
  rw [Option.bind_assoc]
  congr 1
  funext v
  exact Response.ofValue?_canonicalResponse? v

theorem isCanonical_canonical (s : Script) : s.canonical.IsCanonical where
  action v h := by
    obtain ⟨id, hid, rfl⟩ := Option.map_eq_some_iff.mp h
    exact ⟨id, rfl, action?_ne_empty hid⟩
  response v h := by
    obtain ⟨raw, _, hraw⟩ := Option.bind_eq_some_iff.mp h
    cases raw with
    | object fields =>
        refine ⟨_, Response.kindOf fields, (Option.some.inj hraw).symm, ?_,
          Response.not_isBlankText_kindOf fields, ?_⟩
        · rw [Fields.get?_insert, if_pos rfl]
          rfl
        · rw [Fields.get?_insert, if_neg (by decide), Fields.get?_erase, if_pos rfl]
    | text message => exact ⟨_, _, (Option.some.inj hraw).symm, rfl, by decide +kernel, rfl⟩
    | _ => cases hraw

end Relation.Script

namespace Resolution

/-- A script and its canonical form take the resolution the same step. -/
theorem step_canonical (responders : Responders) (r : Resolution) (script : Relation.Script)
    (index : Nat) :
    step responders r script.canonical index = step responders r script index := by
  have houtcome : ∀ place,
      outcome responders script.canonical place = outcome responders script place := by
    intro place
    unfold outcome
    rw [script.action?_canonical, script.response_canonical]
  simp only [step, houtcome]

theorem ofRelation_canonical (responders : Responders) (relation : Relation.Graph) :
    ofRelation responders relation.canonical = ofRelation responders relation := by
  unfold ofRelation Relation.Graph.canonical
  rw [List.zipIdx_map, List.foldl_map]
  congr 1
  funext r script
  exact step_canonical responders r script.1 script.2

end Resolution

namespace Component

variable (index : Nat) (kind : String) (e : Ui.Element)

theorem optionalValue_canonical :
    optionalValue index kind e.canonical = optionalValue index kind e := by
  unfold optionalValue
  rw [e.value?_canonical]

theorem requiredValue_canonical :
    requiredValue index kind e.canonical = requiredValue index kind e := by
  unfold requiredValue
  rw [optionalValue_canonical]

theorem optionalNatural_canonical (field : String) :
    optionalNatural index kind e.canonical field = optionalNatural index kind e field := rfl

end Component

theorem Builtin.translator_canonical (kind : Builtin) (index : Nat) (e : Ui.Element) :
    kind.translator index e.canonical = kind.translator index e := by
  cases kind with
  | text =>
      simp only [translator, Component.text, Component.requiredValue_canonical,
        Component.optionalNatural_canonical]
  | heading =>
      simp only [translator, Component.heading, Component.requiredValue_canonical,
        Component.optionalNatural_canonical]
  | button =>
      simp only [translator, Component.button, Component.requiredValue_canonical,
        e.action?_canonical]
  | input => simp only [translator, Component.input, Component.optionalValue_canonical]

theorem Registrations.instantiate_canonical (registrations : Registrations) (index : Nat)
    (e : Ui.Element) :
    registrations.translators.instantiate index e.canonical =
      registrations.translators.instantiate index e := by
  unfold Translators.instantiate
  rw [e.kind?_canonical]
  cases e.kind? with
  | none => rfl
  | some tag =>
      simp only [registrations.get?_translators]
      cases registrations.last? tag with
      | none => rfl
      | some kind => exact kind.translator_canonical index e

/-- A traversal that changes each result changes the list of them. -/
theorem mapM_map_result {ε α β γ : Type} (f : α → Except ε β) (g : β → γ) (xs : List α) :
    (xs.mapM fun x => (f x).map g) = (xs.mapM f).map (List.map g) := by
  induction xs with
  | nil => rfl
  | cons x rest ih =>
      rw [List.mapM_cons, List.mapM_cons, ih]
      cases f x with
      | error => rfl
      | ok y => cases rest.mapM f <;> rfl

namespace Compilation

def Placed.canonical (p : Placed) : Placed :=
  { p with element := p.element.canonical }

/-- The component is the same, only the element that is kept beside it is the rewritten one. -/
theorem place_canonical (registrations : Registrations) (e : Ui.Element) (index : Nat) :
    place registrations.translators (e.canonical, index) =
      (place registrations.translators (e, index)).map Placed.canonical := by
  unfold place
  dsimp only
  rw [registrations.instantiate_canonical]
  cases registrations.translators.instantiate index e <;> rfl

theorem translate_canonical (registrations : Registrations) (elements : List Ui.Element) :
    translate registrations.translators (elements.map Ui.Element.canonical) =
      (translate registrations.translators elements).map (List.map Placed.canonical) := by
  rw [translate_eq_mapM, translate_eq_mapM, List.zipIdx_map, ← mapM_map_result, List.mapM_map]
  congr 1
  funext p
  exact place_canonical registrations p.1 p.2

theorem assemble_canonical (window : Window) (handlers : Handlers) (placed : List Placed) :
    assemble window handlers (placed.map Placed.canonical) = assemble window handlers placed := by
  simp only [assemble, List.foldl_map, List.filterMap_map, List.map_map]
  rfl

theorem actionWarnings_canonical (handlers : Handlers) (p : Placed) :
    actionWarnings handlers p.canonical = actionWarnings handlers p := by
  have haction : p.canonical.element.action? = p.element.action? := p.element.action?_canonical
  unfold actionWarnings
  rw [haction]
  rfl

/-- The page of a rewritten document is the page of the document, faults and warnings included.
-/
theorem compose_canonical (registrations : Registrations) (ui : Ui.Graph) (handlers : Handlers) :
    compose registrations.translators ui.canonical handlers =
      compose registrations.translators ui handlers := by
  unfold compose Ui.Graph.canonical
  rw [Window.ofSpec_canonical, translate_canonical]
  cases translate registrations.translators ui.elements with
  | error e => rfl
  | ok placed =>
      have hwarnings : (placed.map Placed.canonical).flatMap (actionWarnings handlers) =
          placed.flatMap (actionWarnings handlers) := by
        rw [List.flatMap_map]
        exact List.flatMap_congr fun p _ => actionWarnings_canonical handlers p
      simp only [Except.map, bind, Except.bind, assemble_canonical, hwarnings]

end Compilation

/-- The canonical form of documents is canonical and means the same. With any responders
the scripts come to the same handlers and the same notes, and with the built-in kinds
under any tags the elements come to the same program, with its notes, or to the same
error. -/
theorem canonical_documents_mean_the_same (responders : Responders)
    (registrations : Registrations) (ui : Ui.Graph) (relation : Relation.Graph) :
    ui.canonical.IsCanonical ∧ relation.canonical.IsCanonical ∧
    Resolution.ofRelation responders relation.canonical =
      Resolution.ofRelation responders relation ∧
    (∀ handlers, Compilation.compose registrations.translators ui.canonical handlers =
      Compilation.compose registrations.translators ui handlers) ∧
    Compilation.compose Translators.builtin ui.canonical (resolveActions relation.canonical) =
      Compilation.compose Translators.builtin ui (resolveActions relation) := by
  refine ⟨⟨?_, ?_⟩, ?_, Resolution.ofRelation_canonical responders relation,
    Compilation.compose_canonical registrations ui, ?_⟩
  · intro spec h
    obtain ⟨original, _, rfl⟩ := Option.map_eq_some_iff.mp h
    exact original.isCanonical_canonical
  · intro e he
    obtain ⟨original, _, rfl⟩ := List.mem_map.mp he
    exact original.isCanonical_canonical
  · intro s hs
    obtain ⟨original, _, rfl⟩ := List.mem_map.mp hs
    exact original.isCanonical_canonical
  · have hbuiltin : Translators.builtin = Registrations.translators
        [("text", .text), ("heading", .heading), ("button", .button), ("input", .input)] := rfl
    rw [hbuiltin, Compilation.compose_canonical, resolveActions, resolveActions,
      Resolution.ofRelation_canonical]

end GioForge
