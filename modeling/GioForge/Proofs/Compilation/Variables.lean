import GioForge.Proofs.Compilation.PageVariables

/-!
Variables of compiled programs. Buttons and input fields have a variable each, named
after the kind and the index of the element, and there is one for the message if any
action has a handler. The names are distinct since the decimal form of an index
determines it, each is declared once, and outside its declaration it stands in the slot
of its own element alone.
-/

namespace GioForge

open Code Go

/-- The slots of a file: what is passed to the function that takes a slot. -/
def slotsOf (tokens : List Token) : List (List Token) :=
  argumentsOf "Rigid" (significant tokens)

namespace Program

/-- The tokens of the function that a slot is given as, up to its statements. -/
def slotHead : List Token :=
  [.word "func", .mark '(', .word "gtx", .word "layout", .mark '.', .word "Context", .mark ')',
    .word "layout", .mark '.', .word "Dimensions", .mark '\x7b']

def slotArgument (slot : List (List Token)) : List Token :=
  slotHead ++ (slot.flatMap significant ++ [.mark '\x7d'])

/-- A slot is one call with its body as the argument. -/
theorem significant_slot (slot : List (List Token)) :
    (scanned slotStart ++ slot ++ scanned slotEnd).flatMap significant =
      [.word "layout", .mark '.'] ++ .word "Rigid" :: .mark '(' ::
        (slotArgument slot ++ .mark ')' :: [.mark ',']) := by
  have hstart : (scanned slotStart).flatMap significant =
      [.word "layout", .mark '.', .word "Rigid", .mark '('] ++ slotHead := by rfl
  have hend : (scanned slotEnd).flatMap significant =
      [.mark '\x7d', .mark ')', .mark ','] := by rfl
  rw [List.flatMap_append, List.flatMap_append, hstart, hend]
  simp [slotArgument]

theorem brackets_slotArgument {slot : List (List Token)} (h : Bracketed [] [] slot) :
    brackets [] (slotArgument slot) = some [] := by
  have hhead : brackets [] slotHead = some ['\x7d'] := rfl
  have hclose : brackets ['\x7d'] [.mark '\x7d'] = some [] := rfl
  exact brackets_append hhead (brackets_append (h ['\x7d']) hclose)

theorem word_mem_slotArgument_iff {slot : List (List Token)} {name : String}
    (h : isTracked name = true) :
    .word name ∈ slotArgument slot ↔ name ∈ slot.flatMap mentions := by
  have hall : ∀ name ∈ words slotHead, isTracked name = false := by decide
  have hhead : .word name ∉ slotHead := by
    rw [← mem_words]
    intro hmem
    rw [hall name hmem] at h
    cases h
  rw [slotArgument, List.mem_append, List.mem_append, word_mem_flatMap_iff h]
  simp [hhead]

/-- The arguments of the calls are the bodies of the slots, one by one. -/
theorem argumentsOf_slots {slots : List (List (List Token))}
    (h : ∀ slot ∈ slots, Bracketed [] [] slot ∧ "Rigid" ∉ slot.flatMap mentions)
    (rest : List Token) :
    argumentsOf "Rigid" (slots.flatMap (fun slot =>
        (scanned slotStart ++ slot ++ scanned slotEnd).flatMap significant) ++ rest) =
      slots.map slotArgument ++ argumentsOf "Rigid" rest := by
  induction slots with
  | nil => rfl
  | cons slot others ih =>
      obtain ⟨hbrackets, hname⟩ := h slot (by simp)
      have hargument : .word "Rigid" ∉ slotArgument slot := by
        rw [word_mem_slotArgument_iff rfl]
        exact hname
      have hothers := ih fun other hother => h other (by simp [hother])
      have hcomma : argumentsOf "Rigid" ([.mark ','] ++
          (others.flatMap (fun slot =>
            (scanned slotStart ++ slot ++ scanned slotEnd).flatMap significant) ++ rest)) =
          others.map slotArgument ++ argumentsOf "Rigid" rest := by
        rw [argumentsOf_append (by simp), hothers]
      have hcall := argumentsOf_call hargument (brackets_slotArgument hbrackets) ([.mark ','] ++
        (others.flatMap (fun slot =>
          (scanned slotStart ++ slot ++ scanned slotEnd).flatMap significant) ++ rest))
      rw [hcomma] at hcall
      rw [List.flatMap_cons, significant_slot, List.append_assoc, List.append_assoc,
        argumentsOf_append (by simp)]
      simpa only [List.map_cons, List.cons_append, List.nil_append, List.append_assoc] using hcall

end Program

namespace Widget

theorem mem_mentions_slot (messageOf : String → Option String) (w : Widget) (name : String) :
    name ∈ (w.reactionTokens messageOf ++ [w.tokens]).flatMap mentions ↔
      w.stateName? = some name ∨
        name = messageVariable ∧ (w.message? messageOf).isSome = true := by
  rw [List.flatMap_append, List.flatMap_singleton, mentions_reactionTokens, mentions_tokens]
  split
  · next hsome =>
      simp only [List.mem_append, Option.mem_toList, List.mem_singleton, hsome, and_true]
      tauto
  · next hnone => simp [hnone]

theorem message?_eq_none {messageOf : String → Option String} (w : Widget)
    (h : ∀ action, messageOf action = none) : w.message? messageOf = none := by
  cases w with
  | button index action text => cases action <;> simp [message?, h]
  | _ => rfl

/-- The names that variables of widgets may have. -/
def IsStateName (name : String) : Prop :=
  ∃ index, name = buttonName index ∨ name = editorName index

theorem isStateName_of_stateName? {w : Widget} {name : String} (h : w.stateName? = some name) :
    IsStateName name := by
  cases w with
  | label size text => cases h
  | heading level text => cases h
  | button index action text => exact ⟨index, Or.inl (Option.some.inj h).symm⟩
  | editor index hint => exact ⟨index, Or.inr (Option.some.inj h).symm⟩

theorem IsStateName.isTracked {name : String} (h : IsStateName name) :
    isTracked name = true := by
  rcases h with ⟨index, rfl | rfl⟩
  · exact isTracked_buttonName index
  · exact isTracked_editorName index

/-- Variables of widgets are named apart from all else that has a name of its own. -/
theorem IsStateName.not_mem {name : String} (h : IsStateName name) :
    name ∉ ["Rigid", messageVariable, "main", "w", "ops", "th", "e", "gtx"] := by
  have hothers : ∀ other ∈ ["Rigid", messageVariable, "main", "w", "ops", "th", "e", "gtx"],
      other.toList.head? ≠ some 'b' ∧ other.toList.head? ≠ some 'i' := by
    decide
  intro hmem
  obtain ⟨hbutton, hinput⟩ := hothers name hmem
  rcases h with ⟨index, rfl | rfl⟩
  · exact hbutton (by simp [buttonName])
  · exact hinput (by simp [editorName])

end Widget

namespace Page

/-- The variables of a page are those of its widgets in order, and then the message. -/
theorem map_name_state (page : Page) :
    page.state.map StateVariable.name =
      page.widgets.filterMap Widget.stateName? ++
        if page.feedback then [messageVariable] else [] := by
  have hwidgets : (page.widgets.filterMap fun w => w.component.state).map StateVariable.name =
      page.widgets.filterMap Widget.stateName? := by
    rw [List.map_filterMap]
    exact congrArg (List.filterMap · page.widgets) (funext Widget.name_state)
  unfold state
  rw [List.map_append, hwidgets]
  cases page.feedback <;> rfl

theorem mentions_messageSlot :
    (scanned (Fragment.linesOf 6 Compilation.messageSlot)).flatMap mentions =
      [messageVariable, messageVariable] := by
  decide +kernel

/-- In a slot no other slot begins. -/
theorem rigid_not_mem_mentions {page : Page} {slot : List (List Token)}
    (h : slot ∈ page.slotTokens) : "Rigid" ∉ slot.flatMap mentions := by
  have hmessage : "Rigid" ≠ messageVariable := by decide
  rcases List.mem_append.mp h with hwidget | hlast
  · obtain ⟨w, _, rfl⟩ := List.mem_map.mp hwidget
    rw [Widget.mem_mentions_slot]
    rintro (hname | ⟨hname, _⟩)
    · exact (Widget.isStateName_of_stateName? hname).not_mem (by simp)
    · exact hmessage hname
  · split at hlast
    · obtain rfl := List.mem_singleton.mp hlast
      simp [mentions_messageSlot, hmessage]
    · cases hlast

theorem rigid_not_mem_preambleTokens (page : Page) :
    .word "Rigid" ∉ page.preambleTokens.flatMap significant := by
  have hmessage : "Rigid" ≠ messageVariable := by decide
  rw [word_mem_flatMap_iff rfl, mentions_preambleTokens, map_name_state, List.mem_append,
    List.mem_filterMap]
  rintro (⟨w, _, hname⟩ | hname)
  · exact (Widget.isStateName_of_stateName? hname).not_mem (by simp)
  · split at hname
    · exact hmessage (List.mem_singleton.mp hname)
    · cases hname

/-- The slots of the program of a page, found in its tokens, are those of its widgets and
the one for the message. -/
theorem slotsOf_lines (page : Page) :
    slotsOf (page.program.lines.flatMap Line.tokens) =
      page.slotTokens.map Program.slotArgument := by
  have hfixed := Program.fixedParts_spec.1
  have hslots : ∀ slot ∈ page.slotTokens,
      Bracketed [] [] slot ∧ "Rigid" ∉ slot.flatMap mentions :=
    fun slot hslot => ⟨bracketed_of_mem_slotTokens hslot, rigid_not_mem_mentions hslot⟩
  have habsent : ∀ part : List Line, (scanned part).flatMap mentions = [] →
      .word "Rigid" ∉ (scanned part).flatMap significant := by
    intro part hpart
    simp [word_mem_flatMap_iff (show isTracked "Rigid" = true from rfl), hpart]
  have htail := habsent Program.tailLines (congrArg Program.FixedParts.tail hfixed)
  have hnone := habsent Program.flexNone (congrArg Program.FixedParts.flexNone hfixed)
  have hopen := habsent Program.flexOpen (congrArg Program.FixedParts.flexOpen hfixed)
  have hclose := habsent Program.flexClose (congrArg Program.FixedParts.flexClose hfixed)
  have hend : argumentsOf "Rigid" ((scanned Program.tailLines).flatMap significant) = [] := by
    simpa [argumentsOf] using argumentsOf_append htail []
  unfold slotsOf
  rw [page.scans_lines.significant_eq, lineTokens_eq, List.flatMap_append, List.flatMap_append,
    List.append_assoc, argumentsOf_append page.rigid_not_mem_preambleTokens]
  unfold flexTokens
  split
  · next hempty =>
      rw [argumentsOf_append hnone, hend, List.isEmpty_iff.mp hempty]
      rfl
  · rw [List.flatMap_append, List.flatMap_append, List.flatMap_assoc, List.append_assoc,
      List.append_assoc, argumentsOf_append hopen, Program.argumentsOf_slots hslots,
      argumentsOf_append hclose, hend, List.append_nil]

/-- The variable of a widget stands in the slot of a widget that has it, and only there. -/
theorem word_mem_slot_iff {page : Page} {j : Nat} {slot : List Token} {name : String}
    (hslot : (page.slotTokens.map Program.slotArgument)[j]? = some slot)
    (h : Widget.IsStateName name) :
    .word name ∈ slot ↔ ∃ w, page.widgets[j]? = some w ∧ w.stateName? = some name := by
  have hname : name ≠ messageVariable := fun heq => h.not_mem (by simp [heq])
  rw [List.getElem?_map, Option.map_eq_some_iff] at hslot
  obtain ⟨lines, hlines, rfl⟩ := hslot
  rw [Program.word_mem_slotArgument_iff h.isTracked]
  by_cases hj : j < page.widgets.length
  · rw [slotTokens, List.getElem?_append_left (by simpa using hj), List.getElem?_map,
      Option.map_eq_some_iff] at hlines
    obtain ⟨w, hw, rfl⟩ := hlines
    rw [Widget.mem_mentions_slot]
    simp [hw, hname]
  · -- Behind the slots of the widgets there is at most the one for the message.
    have hwidget : page.widgets[j]? = none := List.getElem?_eq_none (by omega)
    rw [slotTokens, List.getElem?_append_right (by simpa using hj)] at hlines
    split at hlines
    · obtain rfl := List.mem_singleton.mp (List.mem_of_getElem? hlines)
      simp [mentions_messageSlot, hwidget, hname]
    · cases hlines

/-- There is a slot for each widget and, where actions are handled, one for the message. -/
theorem length_slotTokens (page : Page) :
    page.slotTokens.length = page.widgets.length + if page.feedback then 1 else 0 := by
  unfold slotTokens
  rw [List.length_append, List.length_map]
  cases page.feedback <;> rfl

theorem getLast?_slotTokens {page : Page} (h : page.feedback = true) :
    page.slotTokens.getLast? =
      some (scanned (Fragment.linesOf 6 Compilation.messageSlot)) := by
  unfold slotTokens
  rw [if_pos h, List.getLast?_append]
  rfl

/-- The slot of the message reads it without setting it. -/
theorem reads_messageSlot :
    Reads messageVariable
      (Program.slotArgument (scanned (Fragment.linesOf 6 Compilation.messageSlot))) := by
  refine ⟨Program.slotHead ++ [.word "if"], messageSlotTokens.drop 2 ++ [.mark '\x7d'], ?_, ?_, ?_,
    rfl⟩
  · rw [Program.slotArgument, significant_messageSlot]
    rfl
  · decide
  · decide

end Page

/-- The name of the variable that the element at an index has, if its kind has one. -/
def Ui.Element.stateName? (e : Ui.Element) (index : Nat) : Option String :=
  if e.kind? = some "button" then some (Widget.buttonName index)
  else if e.kind? = some "input" then some (Widget.editorName index)
  else none

theorem Widget.Describes.stateName?_eq {index : Nat} {e : Ui.Element} {w : Widget}
    (h : Describes index e w) : w.stateName? = e.stateName? index := by
  cases h with
  | label hkind htext => simp [Widget.stateName?, Ui.Element.stateName?, hkind]
  | heading hkind htext => simp [Widget.stateName?, Ui.Element.stateName?, hkind]
  | button hkind htext => simp [Widget.stateName?, Ui.Element.stateName?, hkind]
  | editor hkind => simp [Widget.stateName?, Ui.Element.stateName?, hkind]

theorem Ui.Element.isStateName {e : Ui.Element} {index : Nat} {name : String}
    (h : e.stateName? index = some name) : Widget.IsStateName name := by
  unfold stateName? at h
  split_ifs at h
  · exact ⟨index, Or.inl (Option.some.inj h).symm⟩
  · exact ⟨index, Or.inr (Option.some.inj h).symm⟩

/-- A variable determines the index of its element. -/
theorem Ui.Element.index_eq_of_stateName? {e d : Ui.Element} {i j : Nat} {name : String}
    (he : e.stateName? i = some name) (hd : d.stateName? j = some name) : i = j := by
  have hkinds : ∀ m n, Widget.buttonName m ≠ Widget.editorName n := by
    intro m n heq
    have hhead := congrArg (fun name => name.toList.head?) heq
    simp [Widget.buttonName, Widget.editorName] at hhead
  unfold stateName? at he hd
  split_ifs at he hd with hbutton hbutton' hinput' hinput
  · have heq : Widget.buttonName i = Widget.buttonName j := Option.some.inj (he.trans hd.symm)
    exact Text.decimalText_injective (String.append_right_inj _ |>.mp heq)
  · exact absurd (Option.some.inj (he.trans hd.symm)) (hkinds i j)
  · exact absurd (Option.some.inj (hd.trans he.symm)) (hkinds j i)
  · have heq : Widget.editorName i = Widget.editorName j := Option.some.inj (he.trans hd.symm)
    exact Text.decimalText_injective (String.append_right_inj _ |>.mp heq)

theorem Widget.map_stateName? {pairs : List (Ui.Element × Nat)} {widgets : List Widget}
    (h : List.Forall₂ (fun p w => Describes p.2 p.1 w) pairs widgets) :
    widgets.map Widget.stateName? = pairs.map fun p => p.1.stateName? p.2 := by
  induction h with
  | nil => rfl
  | cons hw _ ih => rw [List.map_cons, List.map_cons, hw.stateName?_eq, ih]

/-- Names are made from places, so none is made twice. -/
theorem Ui.Element.nodup_stateNames (elements : List Ui.Element) :
    (elements.zipIdx.filterMap fun p => p.1.stateName? p.2).Nodup := by
  have hindices : elements.zipIdx.Pairwise fun p q => p.2 ≠ q.2 := by
    have hrange : (elements.zipIdx.map Prod.snd).Nodup := by
      rw [List.zipIdx_map_snd]
      exact List.nodup_range'
    exact List.pairwise_map.mp hrange
  -- Distinct elements may be equal, but not at the same index.
  rw [List.Nodup, List.pairwise_filterMap]
  apply hindices.imp
  rintro p q hne name hp _ hq rfl
  exact hne (index_eq_of_stateName? hp hq)

namespace Page

/-- A name that is none of the fixed ones is declared as often as it is a variable of the page.
-/
theorem count_declarations {page : Page} {name : String}
    (hmem : name ∈ page.state.map StateVariable.name)
    (hnodup : (page.state.map StateVariable.name).Nodup)
    (hname : name ∉ ["main", "w", "ops", "th", "e", "gtx"]) :
    (declarations (page.program.lines.flatMap Line.tokens)).count name = 1 := by
  have hbefore : ["main", "w", "ops", "th"].count name = 0 := by
    apply List.count_eq_zero.mpr
    intro hmem
    exact hname (List.mem_append_left ["e", "gtx"] hmem)
  have hafter : ["e", "gtx"].count name = 0 := by
    apply List.count_eq_zero.mpr
    intro hmem
    exact hname (List.mem_append_right ["main", "w", "ops", "th"] hmem)
  have hslots : (page.slotTokens.map fun _ => "gtx").count name = 0 := by
    apply List.count_eq_zero.mpr
    intro hslot
    obtain ⟨_, _, rfl⟩ := List.mem_map.mp hslot
    exact hname (by simp)
  rw [declarations_lines, List.count_append, List.count_append, List.count_append, hbefore, hafter,
    hslots, hnodup.count, if_pos hmem]

/-- Without handlers nothing is said of the variable for the message. -/
theorem word_message_not_mem {page : Page} (hfeedback : page.feedback = false)
    (hmessages : ∀ action, page.messageOf action = none) :
    .word messageVariable ∉ page.program.lines.flatMap Line.tokens := by
  have htracked : isTracked messageVariable = true := rfl
  rw [← mem_words, ← words_significant, page.scans_lines.significant_eq, mem_words,
    word_mem_flatMap_iff htracked, mentions_lineTokens, map_name_state, hfeedback]
  simp only [Bool.false_eq_true, if_false, List.append_nil, List.mem_append, List.mem_filterMap,
    List.mem_flatMap, List.mem_cons]
  rintro (⟨w, _, hname⟩ | ⟨slot, hslot, hrigid | hname⟩)
  · exact (Widget.isStateName_of_stateName? hname).not_mem (by simp)
  · exact absurd hrigid (by decide)
  · simp only [slotTokens, hfeedback, Bool.false_eq_true, if_false, List.append_nil] at hslot
    obtain ⟨w, _, rfl⟩ := List.mem_map.mp hslot
    rcases (w.mem_mentions_slot _ _).mp (List.mem_flatMap.mpr hname) with hstate | ⟨_, hsome⟩
    · exact (Widget.isStateName_of_stateName? hstate).not_mem (by simp)
    · rw [w.message?_eq_none hmessages] at hsome
      cases hsome

theorem lastMessage?_eq_none {relation : Relation.Graph}
    (h : (resolveActions relation).isEmpty = true) (action : String) :
    relation.lastMessage? action = none := by
  have hget := get?_resolveActions relation action
  rw [Table.get?, List.isEmpty_iff.mp h] at hget
  exact Option.map_eq_none_iff.mp hget.symm

section

variable {ui : Ui.Graph} {widgets : List Widget}
  (hwidgets : List.Forall₂ (fun p w => Widget.Describes p.2 p.1 w) ui.elements.zipIdx widgets)
  (relation : Relation.Graph)

include hwidgets

theorem map_name_state_of :
    (Page.of ui relation widgets).state.map StateVariable.name =
      ui.elements.zipIdx.filterMap (fun p => p.1.stateName? p.2) ++
        if (resolveActions relation).isEmpty then [] else [messageVariable] := by
  have hnames : widgets.filterMap Widget.stateName? =
      ui.elements.zipIdx.filterMap fun p => p.1.stateName? p.2 := by
    have hmap := congrArg (List.filterMap id) (Widget.map_stateName? hwidgets)
    simpa only [List.filterMap_map, Function.id_comp] using hmap
  rw [map_name_state]
  simp only [Page.of, hnames]
  by_cases hempty : (resolveActions relation).isEmpty = true <;> simp [hempty]

theorem nodup_names_of :
    ((Page.of ui relation widgets).state.map StateVariable.name).Nodup := by
  have helements := Ui.Element.nodup_stateNames ui.elements
  rw [map_name_state_of hwidgets]
  split
  · simpa using helements
  · rw [List.nodup_append]
    refine ⟨helements, by simp, ?_⟩
    rintro name hname other hother rfl
    obtain ⟨p, _, hp⟩ := List.mem_filterMap.mp hname
    exact (Ui.Element.isStateName hp).not_mem (by simp [List.mem_singleton.mp hother])

theorem length_slotTokens_of :
    (Page.of ui relation widgets).slotTokens.length =
      ui.elements.length + if (resolveActions relation).isEmpty then 0 else 1 := by
  have hlength : ui.elements.length = widgets.length := by
    simpa using hwidgets.length_eq
  rw [length_slotTokens, hlength]
  by_cases hempty : (resolveActions relation).isEmpty = true <;> simp [Page.of, hempty]

/-- The variable of an element is declared once. -/
theorem count_declarations_of_element {i : Nat} {e : Ui.Element} {name : String}
    (he : ui.elements[i]? = some e) (hname : e.stateName? i = some name) :
    (declarations ((Page.of ui relation widgets).program.lines.flatMap Line.tokens)).count name =
      1 := by
  have hdeclared : name ∈ (Page.of ui relation widgets).state.map StateVariable.name := by
    rw [map_name_state_of hwidgets]
    apply List.mem_append_left
    exact List.mem_filterMap.mpr ⟨(e, i), List.mk_mem_zipIdx_iff_getElem?.mpr he, hname⟩
  apply count_declarations hdeclared (nodup_names_of hwidgets relation)
  intro hmem
  exact (Ui.Element.isStateName hname).not_mem
    (List.mem_append_right ["Rigid", messageVariable] hmem)

theorem exists_widget_iff (j : Nat) (name : String) :
    (∃ w, widgets[j]? = some w ∧ w.stateName? = some name) ↔
      ∃ e, ui.elements[j]? = some e ∧ e.stateName? j = some name := by
  have hmap := congrArg (fun names => names[j]?) (Widget.map_stateName? hwidgets)
  simp only [List.getElem?_map, List.getElem?_zipIdx, Option.map_map, Nat.zero_add] at hmap
  have hsome : (widgets[j]?.map Widget.stateName? = some (some name)) ↔
      (ui.elements[j]?.map fun e => e.stateName? j) = some (some name) := by
    rw [hmap]
    rfl
  simpa only [Option.map_eq_some_iff] using hsome

/-- The variable of an element is used in the slot of the element and in no other. -/
theorem word_mem_slot_iff_of_element {i j : Nat} {e : Ui.Element} {name : String}
    {slot : List Token} (he : ui.elements[i]? = some e) (hname : e.stateName? i = some name)
    (hslot : ((Page.of ui relation widgets).slotTokens.map Program.slotArgument)[j]? =
      some slot) : .word name ∈ slot ↔ j = i := by
  rw [word_mem_slot_iff hslot (Ui.Element.isStateName hname)]
  refine (exists_widget_iff hwidgets j name).trans ?_
  constructor
  · rintro ⟨d, _, hd⟩
    exact Ui.Element.index_eq_of_stateName? hd hname
  · rintro rfl
    exact ⟨e, he, hname⟩

theorem count_declarations_of_handlers (h : (resolveActions relation).isEmpty = false) :
    (declarations ((Page.of ui relation widgets).program.lines.flatMap Line.tokens)).count
      messageVariable = 1 := by
  have hdeclared : messageVariable ∈
      (Page.of ui relation widgets).state.map StateVariable.name := by
    rw [map_name_state_of hwidgets]
    simp [h]
  exact count_declarations hdeclared (nodup_names_of hwidgets relation) (by decide)

end

end Page

/-- The variables of a compiled program are distinct and in the order of the elements, with
the one for the message last, and it is there when there are handlers. The variable of an
element is declared once and stands in the slot of the element and in no other; the variable
for the message is declared once and read in the last slot, or stands nowhere. -/
theorem variables_agree_with_uses (ui : Ui.Graph) (relation : Relation.Graph) {source : String}
    (h : compile ui (resolveActions relation) = .ok source) :
    ∃ (c : Compilation) (tokens : List Token),
      Compilation.compose Translators.builtin ui (resolveActions relation) = .ok c ∧
      lex source = some tokens ∧
      c.program.state.map StateVariable.name =
        ui.elements.zipIdx.filterMap (fun p => p.1.stateName? p.2) ++
          (if (resolveActions relation).isEmpty then [] else [messageVariable]) ∧
      (c.program.state.map StateVariable.name).Nodup ∧
      (slotsOf tokens).length =
        ui.elements.length + (if (resolveActions relation).isEmpty then 0 else 1) ∧
      (∀ (i : Nat) (e : Ui.Element) (name : String),
        ui.elements[i]? = some e → e.stateName? i = some name →
        (declarations tokens).count name = 1 ∧
        ∀ (j : Nat) (slot : List Token), (slotsOf tokens)[j]? = some slot →
          (.word name ∈ slot ↔ j = i)) ∧
      ((resolveActions relation).isEmpty = false →
        (declarations tokens).count messageVariable = 1 ∧
        ∃ slot, (slotsOf tokens).getLast? = some slot ∧ Reads messageVariable slot) ∧
      ((resolveActions relation).isEmpty = true → .word messageVariable ∉ tokens) := by
  obtain ⟨c, widgets, hc, hwidgets, hprogram, rfl⟩ := Compilation.page_of_compile h
  have hlex := (Page.of ui relation widgets).lex_source
  have hslots := (Page.of ui relation widgets).slotsOf_lines
  have hstate : c.program.state = (Page.of ui relation widgets).state := by
    rw [hprogram]
    rfl
  refine ⟨c, _, hc, hlex, ?_, ?_, ?_, ?_, ?_, ?_⟩
  · rw [hstate]
    exact Page.map_name_state_of hwidgets relation
  · rw [hstate]
    exact Page.nodup_names_of hwidgets relation
  · rw [hslots, List.length_map]
    exact Page.length_slotTokens_of hwidgets relation
  · intro i e name he hname
    refine ⟨Page.count_declarations_of_element hwidgets relation he hname, ?_⟩
    intro j slot hslot
    rw [hslots] at hslot
    exact Page.word_mem_slot_iff_of_element hwidgets relation he hname hslot
  · intro hhandlers
    have hfeedback : (Page.of ui relation widgets).feedback = true := by
      simp [Page.of, hhandlers]
    refine ⟨Page.count_declarations_of_handlers hwidgets relation hhandlers, ?_⟩
    rw [hslots, List.getLast?_map, Page.getLast?_slotTokens hfeedback]
    exact ⟨_, rfl, Page.reads_messageSlot⟩
  · intro hempty
    apply Page.word_message_not_mem
    · simp [Page.of, hempty]
    · exact Page.lastMessage?_eq_none hempty

/-- Two buttons and an input field, with a handler for one of the buttons. -/
theorem variables_agree_with_uses_mixed :
    ∃ source tokens,
      compile
        { elements :=
            [(Ui.Element.ofKind "button").withValue "button1" |>.withAction "go",
              Ui.Element.ofKind "input",
              (Ui.Element.ofKind "button").withValue "actionMessage"] }
        (resolveActions ⟨[.of "go" (.text "input1")]⟩) = .ok source ∧
      lex source = some tokens ∧
      (declarations tokens).count "input1" = 1 ∧
      (∀ (j : Nat) (slot : List Token), (slotsOf tokens)[j]? = some slot →
        (.word "input1" ∈ slot ↔ j = 1)) ∧
      ∃ slot, (slotsOf tokens).getLast? = some slot ∧ Reads messageVariable slot := by
  obtain ⟨_, tokens, _, hlex, _, _, _, helements, hmessage, _⟩ := variables_agree_with_uses
    { elements :=
        [(Ui.Element.ofKind "button").withValue "button1" |>.withAction "go",
          Ui.Element.ofKind "input",
          (Ui.Element.ofKind "button").withValue "actionMessage"] }
    ⟨[.of "go" (.text "input1")]⟩ rfl
  obtain ⟨hdeclared, hslots⟩ := helements 1 (Ui.Element.ofKind "input") "input1" rfl rfl
  exact ⟨_, tokens, rfl, hlex, hdeclared, hslots, (hmessage rfl).2⟩

end GioForge
