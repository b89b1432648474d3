import GioForge.Proofs.Compilation.Bindings
import GioForge.Proofs.Compilation.Canonical

/-!
What a compilation sees of the handlers. Handlers are looked up in two places, for the
slot of an element and for the warning about it, and only for elements that can be used.
Beside that it counts whether there are any, which decides on the slot for messages. So
two tables come to the same program and the same notes if they agree on the actions of
buttons and on being empty; neither their order nor any other entry shows. The actions of
all other elements show in the warnings about these elements and nowhere else.
-/

namespace GioForge

open Code Compilation CompileError

namespace Ui

/-- The element bound to an action, unless it is a button. -/
def Element.rebind (action : Option Value) (e : Element) : Element :=
  if e.kind? = some "button" then e else { e with rawAction := action }

/-- The user interface with other actions, by index, for all elements but buttons. -/
def Graph.rebind (actions : Nat → Option Value) (ui : Graph) : Graph :=
  { ui with elements := ui.elements.mapIdx fun i e => e.rebind (actions i) }

end Ui

/-- The note about an element that cannot be used and has an action all the same. -/
def Ui.Element.inertNotes (e : Ui.Element) (index : Nat) : List Diagnostic :=
  (e.action?.map fun action =>
    warning ("'" ++ e.kind?.getD "" ++ "' elements are not interactive; action '" ++ action ++
      "' is ignored") (placeOf index)).toList

/-- All that a component that reacts the usual way asks of the handlers is the one for its action,
and that only if it can be used. -/
theorem Component.Standard.render_congr {c : Component} (hc : c.Standard) {a b : Handlers}
    (h : ∀ action, c.signal.isSome = true → c.action = some action →
      a.get? action = b.get? action) :
    c.render (some a) = c.render (some b) := by
  cases hsignal : c.signal with
  | none => rw [hc.render_of_inert hsignal, hc.render_of_inert hsignal]
  | some signal =>
      have hlookup : c.action.bind a.get? = c.action.bind b.get? := by
        cases haction : c.action with
        | none => rfl
        | some action => exact h action (by rw [hsignal]; rfl) haction
      rw [hc.render_of_signal hsignal, hc.render_of_signal hsignal, hlookup]

namespace Compilation

/-- A component that signals looks at the handler of its own action and at no other. -/
theorem actionWarnings_congr {p : Placed} {a b : Handlers}
    (h : ∀ action, p.component.signal.isSome = true → p.element.action? = some action →
      a.get? action = b.get? action) :
    actionWarnings a p = actionWarnings b p := by
  unfold actionWarnings
  cases haction : p.element.action? with
  | none => rfl
  | some action =>
      cases hsignal : p.component.signal with
      | none => rfl
      | some signal =>
          have hsame := h action (by rw [hsignal]; rfl) haction
          simp only [a.contains_eq, b.contains_eq, hsame]

/-- A program is put together from the components alone. -/
theorem assemble_congr {placed others : List Placed} {a b : Handlers}
    (hcomponents : others.map Placed.component = placed.map Placed.component)
    (hempty : a.isEmpty = b.isEmpty)
    (hrender : ∀ p ∈ placed, p.component.render (some a) = p.component.render (some b))
    (window : Window) : assemble window a placed = assemble window b others := by
  have himports : ∀ (list : List Placed) (start : Imports),
      list.foldl (fun all p => all.merge p.component.imports) start =
        (list.map Placed.component).foldl (fun all c => all.merge c.imports) start :=
    fun list start => by rw [List.foldl_map]
  have hstate : ∀ list : List Placed, list.filterMap (fun p => p.component.state) =
      (list.map Placed.component).filterMap Component.state :=
    fun list => List.filterMap_map.symm
  have hslots : ∀ list : List Placed,
      (list.map fun p => Program.ensureReturn (p.component.render (some b))) =
        (list.map Placed.component).map fun c => Program.ensureReturn (c.render (some b)) :=
    fun list => by rw [List.map_map]; rfl
  have hrendered : (placed.map fun p => Program.ensureReturn (p.component.render (some a))) =
      placed.map fun p => Program.ensureReturn (p.component.render (some b)) :=
    List.map_congr_left fun p hp => congrArg Program.ensureReturn (hrender p hp)
  unfold assemble
  simp only [hrendered, himports, hstate, hslots, hcomponents, hempty]

/-- What is placed is an element of the document with its component. -/
theorem mem_translate {translators : Translators} {elements : List Ui.Element}
    {placed : List Placed} (h : translate translators elements = .ok placed) {p : Placed}
    (hp : p ∈ placed) :
    elements[p.index]? = some p.element ∧
      translators.instantiate p.index p.element = .ok p.component := by
  obtain ⟨hlength, hall⟩ := translate_ok h
  obtain ⟨i, hi⟩ := List.mem_iff_getElem?.mp hp
  have hlt : i < elements.length := hlength ▸ (List.getElem?_eq_some_iff.mp hi).1
  obtain ⟨c, hc, hthere⟩ := hall i elements[i] (List.getElem?_eq_getElem hlt)
  obtain rfl : p = ⟨i, elements[i], c⟩ := Option.some.inj (hi.symm.trans hthere)
  exact ⟨List.getElem?_eq_getElem hlt, hc⟩

/-- With any translators, a compilation sees no difference between handlers of which the components
make the same and which agree on the actions of elements that can be used. -/
theorem compose_congr {translators : Translators} {ui : Ui.Graph} {a b : Handlers}
    (hempty : a.isEmpty = b.isEmpty)
    (h : ∀ i e c, ui.elements[i]? = some e → translators.instantiate i e = .ok c →
      c.render (some a) = c.render (some b) ∧
        ∀ action, c.signal.isSome = true → e.action? = some action →
          a.get? action = b.get? action) :
    compose translators ui a = compose translators ui b := by
  unfold compose
  cases hplaced : translate translators ui.elements with
  | error e => rfl
  | ok placed =>
      have hagree := fun p (hp : p ∈ placed) =>
        let ⟨he, hc⟩ := mem_translate hplaced hp
        h p.index p.element p.component he hc
      have hrender : ∀ p ∈ placed, p.component.render (some a) = p.component.render (some b) :=
        fun p hp => (hagree p hp).1
      have hwarnings : placed.flatMap (actionWarnings a) = placed.flatMap (actionWarnings b) :=
        List.flatMap_congr fun p hp => actionWarnings_congr (hagree p hp).2
      simp only [bind, Except.bind, pure, Except.pure, assemble_congr rfl hempty hrender,
        hwarnings]

end Compilation

/-- Of the built-in components only buttons can be used, and a button is bound to the
action of its element. -/
theorem Translators.signal_builtin {index : Nat} {e : Ui.Element} {c : Component}
    (h : builtin.instantiate index e = .ok c) :
    (e.kind? = some "button" ∧ c.action = e.action?) ∨
      (e.kind? ≠ some "button" ∧ c.signal = none) := by
  obtain ⟨w, hdescribes, rfl⟩ := instantiate_builtin h
  cases hdescribes with
  | label hkind => exact .inr ⟨by rw [hkind]; decide, rfl⟩
  | heading hkind => exact .inr ⟨by rw [hkind]; decide, rfl⟩
  | button hkind => exact .inl ⟨hkind, rfl⟩
  | editor hkind => exact .inr ⟨by rw [hkind]; decide, rfl⟩

theorem Translators.kind_builtin {index : Nat} {e : Ui.Element} {c : Component}
    (h : builtin.instantiate index e = .ok c) : e.kind? = some c.kind := by
  obtain ⟨w, hdescribes, rfl⟩ := instantiate_builtin h
  cases hdescribes with
  | label hkind => exact hkind
  | heading hkind => exact hkind
  | button hkind => exact hkind
  | editor hkind => exact hkind

namespace Ui.Element

theorem kind?_rebind (e : Element) (action : Option Value) :
    (e.rebind action).kind? = e.kind? := by
  unfold rebind
  split <;> rfl

theorem rebind_of_button {e : Element} (h : e.kind? = some "button") (action : Option Value) :
    e.rebind action = e :=
  if_pos h

end Ui.Element

/-- No built-in translator but that of buttons looks at the action. -/
theorem Translators.instantiate_rebind (index : Nat) (e : Ui.Element) (action : Option Value) :
    builtin.instantiate index (e.rebind action) = builtin.instantiate index e := by
  by_cases hbutton : e.kind? = some "button"
  · rw [Ui.Element.rebind_of_button hbutton]
  · have hrebind : e.rebind action = { e with rawAction := action } := if_neg hbutton
    unfold instantiate
    rw [e.kind?_rebind]
    cases hkind : e.kind? with
    | none => rfl
    | some kind =>
        have hother : kind ≠ "button" := fun heq => hbutton (heq ▸ hkind)
        simp only [get?_builtin, hother, if_false, hrebind]
        split_ifs <;> rfl

namespace Compilation

def Placed.rebind (actions : Nat → Option Value) (p : Placed) : Placed :=
  { p with element := p.element.rebind (actions p.index) }

/-- Changing actions of elements without a signal changes the element that is kept and not its
component. -/
theorem place_rebind (actions : Nat → Option Value) (p : Ui.Element × Nat) :
    place Translators.builtin (p.1.rebind (actions p.2), p.2) =
      (place Translators.builtin p).map (Placed.rebind actions) := by
  unfold place
  dsimp only
  rw [Translators.instantiate_rebind]
  cases Translators.builtin.instantiate p.2 p.1 <;> rfl

theorem zipIdx_mapIdx {α β : Type} (f : Nat → α → β) (xs : List α) :
    (xs.mapIdx f).zipIdx = xs.zipIdx.map fun p => (f p.2 p.1, p.2) := by
  apply List.ext_getElem
  · simp
  · intro i hi hj
    simp

theorem translate_rebind (actions : Nat → Option Value) (ui : Ui.Graph) :
    translate Translators.builtin (ui.rebind actions).elements =
      (translate Translators.builtin ui.elements).map (List.map (Placed.rebind actions)) := by
  rw [translate_eq_mapM, translate_eq_mapM, Ui.Graph.rebind, zipIdx_mapIdx, ← mapM_map_result,
    List.mapM_map]
  congr 1
  funext p
  exact place_rebind actions p

theorem component_rebind (actions : Nat → Option Value) (placed : List Placed) :
    (placed.map (Placed.rebind actions)).map Placed.component = placed.map Placed.component := by
  rw [List.map_map]
  rfl

/-- The notes about a place that is not that of an element to be bound anew. -/
theorem filter_actionWarnings_rebind {handlers : Handlers} {actions : Nat → Option Value}
    {p : Placed} {place : String}
    (h : p.element.kind? ≠ some "button" → place ≠ placeOf p.index) :
    (actionWarnings handlers (p.rebind actions)).filter (fun d => d.location = some place) =
      (actionWarnings handlers p).filter fun d => d.location = some place := by
  by_cases hbutton : p.element.kind? = some "button"
  · have hsame : p.rebind actions = p := by
      unfold Placed.rebind
      rw [Ui.Element.rebind_of_button hbutton]
    rw [hsame]
  · have hnone : ∀ q : Placed, q.index = p.index →
        (actionWarnings handlers q).filter (fun d => d.location = some place) = [] := by
      intro q hq
      rw [List.filter_eq_nil_iff]
      intro d hd
      rw [location_of_mem_actionWarnings hd, hq, decide_eq_true_eq, Option.some.injEq]
      exact (h hbutton).symm
    rw [hnone p rfl, hnone (p.rebind actions) rfl]

/-- The warnings about an element that is no button come from the element alone. -/
theorem actionWarnings_of_inert {handlers : Handlers} {p : Placed}
    (hok : Translators.builtin.instantiate p.index p.element = .ok p.component)
    (hbutton : p.element.kind? ≠ some "button") :
    actionWarnings handlers p = p.element.inertNotes p.index := by
  have hsignal := (Translators.signal_builtin hok).resolve_left fun h => hbutton h.1
  unfold actionWarnings Ui.Element.inertNotes
  rw [Translators.kind_builtin hok, hsignal.2]
  cases p.element.action? <;> rfl

end Compilation

/-- Handlers matter only where they are bound. Two tables that agree on the actions of the
buttons, and on whether there are any handlers, lead to the same error or to the same
program and notes. If in addition all other elements are given other actions, the error or
the program stays the same, and so does every note except the warnings about these other
elements, which follow from the elements alone. -/
theorem handlers_matter_only_where_bound (ui : Ui.Graph) (a b : Handlers)
    (hempty : a.isEmpty = b.isEmpty)
    (hbound : ∀ e ∈ ui.elements, e.kind? = some "button" → ∀ action, e.action? = some action →
      a.get? action = b.get? action) :
    compose Translators.builtin ui a = compose Translators.builtin ui b ∧
    ∀ actions,
      (∀ error, compose Translators.builtin (ui.rebind actions) b = .error error ↔
        compose Translators.builtin ui a = .error error) ∧
      ∀ c, compose Translators.builtin ui a = .ok c →
        ∃ other, compose Translators.builtin (ui.rebind actions) b = .ok other ∧
          other.program = c.program ∧
          (∀ place, (∀ i e, ui.elements[i]? = some e → e.kind? ≠ some "button" →
              place ≠ placeOf i) →
            other.diagnosticsAt place = c.diagnosticsAt place) ∧
          ∀ i e, (ui.rebind actions).elements[i]? = some e → e.kind? ≠ some "button" →
            other.diagnosticsAt (placeOf i) = e.inertNotes i := by
  have hsame : compose Translators.builtin ui a = compose Translators.builtin ui b := by
    refine compose_congr hempty ?_
    intro i e c he hc
    have hstandard := Translators.standard_builtin hc
    rcases Translators.signal_builtin hc with ⟨hbutton, hbinding⟩ | ⟨_, hnone⟩
    · have hagree := hbound e (List.mem_of_getElem? he) hbutton
      refine ⟨hstandard.render_congr fun action _ haction => ?_, fun action _ => hagree action⟩
      exact hagree action (hbinding.symm.trans haction)
    · have hlaidOut := hstandard.render_of_inert hnone
      refine ⟨(hlaidOut a).trans (hlaidOut b).symm, fun action hsignal => ?_⟩
      rw [hnone] at hsignal
      cases hsignal
  refine ⟨hsame, ?_⟩
  intro actions
  rw [hsame]
  have htranslate := translate_rebind actions ui
  unfold compose
  rw [htranslate]
  cases hplaced : translate Translators.builtin ui.elements with
  | error e =>
      refine ⟨fun error => Iff.rfl, ?_⟩
      intro c hc
      cases hc
  | ok placed =>
      have hrebound : translate Translators.builtin (ui.rebind actions).elements =
          .ok (placed.map (Placed.rebind actions)) := by
        rw [htranslate, hplaced]
        rfl
      refine ⟨fun error => iff_of_false nofun nofun, ?_⟩
      intro c hc
      obtain rfl := Except.ok.inj hc
      refine ⟨_, rfl, ?_, ?_, ?_⟩
      · exact (assemble_congr (component_rebind actions placed) rfl (fun p _ => rfl)
          (Window.ofSpec ui.window)).symm
      · intro place hplace
        unfold diagnosticsAt
        rw [List.filter_append, List.filter_append, List.filter_flatMap, List.filter_flatMap,
          List.flatMap_map]
        refine congrArg _ (List.flatMap_congr fun p hp => filter_actionWarnings_rebind ?_)
        exact hplace p.index p.element (mem_translate hplaced hp).1
      · intro i e he hbutton
        obtain ⟨component, hcomponent, hp⟩ := (translate_ok hrebound).2 i e he
        have hindices : ((placed.map (Placed.rebind actions)).map Placed.index).Nodup := by
          rw [index_placed hrebound]
          exact List.nodup_range
        have hwarnings := @filter_warnings b _ _ (List.mem_of_getElem? hp) hindices
        unfold diagnosticsAt
        rw [List.filter_append, filter_iconWarnings, List.nil_append]
        exact hwarnings.trans (actionWarnings_of_inert hcomponent hbutton)

/-- A button between a text and an input field, each with an action. Of the handlers only
that of the button is the same in both tables, and only the text and the input field are
bound anew. -/
theorem handlers_matter_only_where_bound_between :
    ∃ c other,
      compose Translators.builtin
        { elements := [(Ui.Element.ofKind "text").withValue "Hi" |>.withAction "hint",
            (Ui.Element.ofKind "button").withValue "Go" |>.withAction "go",
            (Ui.Element.ofKind "input").withAction "go"] }
        ((Table.empty.insert "go" "actionMessage = \"Hi\"").insert "hint" "x") = .ok c ∧
      compose Translators.builtin
        { elements := [(Ui.Element.ofKind "text").withValue "Hi",
            (Ui.Element.ofKind "button").withValue "Go" |>.withAction "go",
            Ui.Element.ofKind "input"] }
        ((Table.empty.insert "none" "y").insert "go" "actionMessage = \"Hi\"") = .ok other ∧
      other.program = c.program ∧ c.diagnostics.length = 2 ∧
      other.diagnosticsAt (placeOf 1) = c.diagnosticsAt (placeOf 1) := by
  obtain ⟨_, hrebind⟩ := handlers_matter_only_where_bound
    { elements := [(Ui.Element.ofKind "text").withValue "Hi" |>.withAction "hint",
        (Ui.Element.ofKind "button").withValue "Go" |>.withAction "go",
        (Ui.Element.ofKind "input").withAction "go"] }
    ((Table.empty.insert "go" "actionMessage = \"Hi\"").insert "hint" "x")
    ((Table.empty.insert "none" "y").insert "go" "actionMessage = \"Hi\"") rfl (by
      intro e he hbutton action haction
      simp only [List.mem_cons, List.not_mem_nil, or_false] at he
      rcases he with rfl | rfl | rfl
      · exact absurd hbutton (by decide +kernel)
      · obtain rfl : "go" = action := Option.some.inj haction
        rfl
      · exact absurd hbutton (by decide +kernel))
  obtain ⟨other, hother, hprogram, hplaces, _⟩ := (hrebind fun _ => none).2 _ rfl
  refine ⟨_, other, rfl, hother, hprogram, rfl, hplaces _ ?_⟩
  intro i e he hother hplace
  obtain rfl : 1 = i := placeOf_injective hplace
  obtain rfl := Option.some.inj he
  exact hother (by decide +kernel)

end GioForge
