import GioForge.Compilation
import GioForge.Proofs.Document.Reordering
import GioForge.Proofs.Document.RoundTrip
import Mathlib.Data.List.Pairwise

/-!
The order of keys in a JSON document is of no account. A decoder that puts entries into a
record gives the same for any order if the fields can be set in any order, which is so for
all records of user interfaces and scripts. So two texts that differ in the order of keys,
at whatever depth, are read as the same graph or are both refused, and compile to the same.
-/

namespace GioForge

namespace Document.Decoder

variable {α σ : Type}

/-- The decoder makes the same of trees that differ in the order of keys, or fails on both. -/
def IgnoresOrder (decoder : Decoder α) : Prop :=
  ∀ reading node other, reading.looksInside = false → Reordered node other →
    (decoder reading node).toOption = (decoder reading other).toOption

theorem text_ignoresOrder : text.IgnoresOrder := by
  intro reading node other _ h
  cases h with
  | text mark place hsame => exact hsame
  | _ => rfl

theorem flag_ignoresOrder : flag.IgnoresOrder := by
  intro reading node other _ h
  cases h <;> rfl

theorem word_ignoresOrder : word.IgnoresOrder := by
  intro reading node other _ h
  cases h with
  | @number mark place n m hsame =>
      cases n with
      | error fault =>
          cases m with
          | error other => rfl
          | ok m => cases hsame
      | ok n =>
          obtain rfl := toOption_eq_some_iff.mp hsame.symm
          cases n <;> rfl
  | _ => rfl

theorem any_ignoresOrder : any.IgnoresOrder :=
  fun reading _ _ _ h => Node.toOption_value h reading.room

theorem optional_ignoresOrder {decoder : Decoder α} (hdecoder : decoder.IgnoresOrder) :
    (optional decoder).IgnoresOrder := by
  intro reading node other hreading h
  have hmap : ((decoder reading node).map some).toOption =
      ((decoder reading other).map some).toOption := by
    rw [toOption_map, toOption_map, hdecoder reading node other hreading h]
  cases h with
  | null mark place => rfl
  | _ => exact hmap

theorem toOption_enter (reading : Reading) (mark place : Nat) :
    (reading.enter mark).toOption = (reading.enter place).toOption := by
  unfold Reading.enter
  split <;> rfl

/-- A list of things for which the order of keys has no meaning is such a thing. -/
theorem list_ignoresOrder {decoder : Decoder α} (hdecoder : decoder.IgnoresOrder) :
    (list decoder).IgnoresOrder := by
  intro reading node other hreading h
  cases h with
  | array mark place hlength hitems =>
      refine toOption_bind_congr (toOption_enter reading mark place) fun inner hinner => ?_
      obtain ⟨-, rfl⟩ := Reading.enter_eq_ok.mp hinner
      refine toOption_bind_congr ?_ fun _ _ => rfl
      exact toOption_mapM_congr hlength fun pair hpair =>
        hdecoder reading.inside pair.1 pair.2 hreading (hitems pair hpair)
  | _ => rfl

/-- The field is set to the same whatever the order of keys. -/
def Slot.IgnoresOrder (s : Slot σ) : Prop :=
  ∀ record, Decoder.IgnoresOrder fun reading node => s.fill reading node record

/-- Two fields can be set in either order. -/
def Slot.Swap (s t : Slot σ) : Prop :=
  ∀ reading a b, Swaps (s.fill reading a) (t.fill reading b)

instance : Std.Symm (Slot.Swap : Slot σ → Slot σ → Prop) where
  symm _ _ h := fun reading a b => (h reading b a).symm

/-- The fields of a record can be set in any order, from trees with keys in any order. -/
structure Unordered (slots : List (Slot σ)) (other : Other σ) : Prop where
  fill_ignores : ∀ s ∈ slots, s.IgnoresOrder
  other_ignores : ∀ name record, IgnoresOrder fun reading node => other reading name node record
  fill_swap : slots.Pairwise Slot.Swap
  fill_other_swap : ∀ s ∈ slots, ∀ reading name a b,
    Swaps (s.fill reading a) (other reading name b)
  other_swap : ∀ reading m n a b, m ≠ n → Swaps (other reading m a) (other reading n b)

section Putting

variable {reading : Reading} {slots : List (Slot σ)} {other : Other σ}

/-- Where no key is given twice, it plays no part which keys were seen. -/
theorem fillEntries_eq_foldlM {entries : List (Except Fault String × Node)} {seen : List String}
    (hdistinct : (entries.filterMap keyOf).Nodup)
    (hseen : ∀ name ∈ entries.filterMap keyOf, name ∉ seen) (record : σ) :
    fillEntries reading slots other seen record entries =
      entries.foldlM (named fun name node r => put reading slots other r (name, node)) record := by
  induction entries generalizing seen record with
  | nil => rfl
  | cons entry rest ih =>
      obtain ⟨key, node⟩ := entry
      rw [fillEntries, List.foldlM_cons]
      cases key with
      | error fault => rfl
      | ok name =>
          obtain ⟨hnew, hdistinct⟩ := List.nodup_cons.mp hdistinct
          obtain ⟨hname, hseen⟩ := List.forall_mem_cons.mp hseen
          have hlater : ∀ later ∈ rest.filterMap keyOf, later ∉ name :: seen := by
            intro later hlater hmem
            obtain rfl | hold := List.mem_cons.mp hmem
            · exact hnew hlater
            · exact hseen later hlater hold
          change _ = (put reading slots other record (name, node) >>= _)
          unfold put
          cases hfind : slots.find? fun s => s.name = name with
          | none =>
              simp only [hfind, bind, Except.bind]
              cases other reading name node record with
              | error fault => rfl
              | ok next => exact ih hdistinct hseen next
          | some s =>
              have hfresh : seen.contains name = false := by simpa using hname
              simp only [hfind, hfresh, bind, Except.bind]
              cases s.fill reading node record with
              | error fault => rfl
              | ok next => exact ih hdistinct hlater next

theorem Unordered.put_ignoresOrder (h : Unordered slots other) (name : String) (record : σ) :
    IgnoresOrder fun reading node => put reading slots other record (name, node) := by
  intro reading a b hreading hab
  dsimp only [put]
  cases hfind : slots.find? fun s => s.name = name with
  | none => exact h.other_ignores name record reading a b hreading hab
  | some s =>
      have hs := List.mem_of_find?_eq_some hfind
      exact h.fill_ignores s hs record reading a b hreading hab

/-- Two entries of different names can be put in either order. -/
theorem Unordered.put_swaps (h : Unordered slots other) {m n : String} (hne : m ≠ n)
    (a b : Node) :
    Swaps (fun record => put reading slots other record (m, a))
      (fun record => put reading slots other record (n, b)) := by
  unfold put
  dsimp only
  cases hm : slots.find? fun s => s.name = m with
  | none =>
      cases hn : slots.find? fun s => s.name = n with
      | none => exact h.other_swap reading m n a b hne
      | some t => exact (h.fill_other_swap t (List.mem_of_find?_eq_some hn) reading m b a).symm
  | some s =>
      have hs := List.mem_of_find?_eq_some hm
      cases hn : slots.find? fun s => s.name = n with
      | none => exact h.fill_other_swap s hs reading n a b
      | some t =>
          have hdiffer : s ≠ t := by
            rintro rfl
            have hsm : s.name = m := by simpa using List.find?_some hm
            have hsn : s.name = n := by simpa using List.find?_some hn
            exact hne (hsm.symm.trans hsn)
          exact h.fill_swap.forall hs (List.mem_of_find?_eq_some hn) hdiffer reading a b

/-- So the entries of a record may come in any order. -/
theorem Unordered.object_ignoresOrder (h : Unordered slots other) (start : σ) :
    (object start slots other).IgnoresOrder := by
  intro reading node tree hreading hrelated
  cases hrelated with
  | object mark place hdistinct hkeys hvalues horder =>
      refine toOption_bind_congr (toOption_enter reading mark place) fun inner hinner => ?_
      obtain ⟨-, rfl⟩ := Reading.enter_eq_ok.mp hinner
      refine toOption_bind_congr ?_ fun _ _ => rfl
      have hothers := (horder.filterMap keyOf).nodup_iff.mp (filterMap_keyOf hkeys ▸ hdistinct)
      rw [fillEntries_eq_foldlM hdistinct fun _ _ => List.not_mem_nil,
        fillEntries_eq_foldlM hothers fun _ _ => List.not_mem_nil]
      refine toOption_foldlM_named Reordered hdistinct hkeys hvalues horder ?_ ?_ start
      · intro name a b record hab
        exact h.put_ignoresOrder name record reading.inside a b hreading hab
      · intro m n a b hne
        exact h.put_swaps hne a b
  | _ => rfl

/-- In a list of fields there is no order to ignore but inside its items. -/
theorem toOption_fillItems (h : ∀ s ∈ slots, s.IgnoresOrder)
    (hreading : reading.looksInside = false) {items others : List Node}
    (hlength : items.length = others.length)
    (hitems : ∀ pair ∈ items.zip others, Reordered pair.1 pair.2) (record : σ) :
    (fillItems reading record slots items).toOption =
      (fillItems reading record slots others).toOption := by
  induction items generalizing others slots record with
  | nil =>
      obtain rfl := List.eq_nil_of_length_eq_zero hlength.symm
      rfl
  | cons item rest ih =>
      obtain ⟨tree, more, rfl⟩ := List.exists_cons_of_length_eq_add_one hlength.symm
      rw [List.zip_cons_cons] at hitems
      obtain ⟨hfirst, hrest⟩ := List.forall_mem_cons.mp hitems
      cases slots with
      | nil =>
          rw [fillItems, fillItems]
          split <;> rfl
      | cons s left =>
          obtain ⟨hs, hleft⟩ := List.forall_mem_cons.mp h
          rw [fillItems, fillItems]
          refine toOption_bind_congr (hs record reading item tree hreading hfirst) fun next _ => ?_
          exact ih hleft (Nat.succ.inj hlength) hrest next

/-- A record that may also be written as a list ignores the order where it has keys. -/
theorem Unordered.record_ignoresOrder (h : Unordered slots other) (start : σ) :
    (record start slots other).IgnoresOrder := by
  intro reading node tree hreading hrelated
  have hobject := h.object_ignoresOrder start reading node tree hreading hrelated
  cases hrelated with
  | array mark place hlength hitems =>
      refine toOption_bind_congr (toOption_enter reading mark place) fun inner hinner => ?_
      obtain ⟨-, rfl⟩ := Reading.enter_eq_ok.mp hinner
      refine toOption_bind_congr ?_ fun _ _ => rfl
      have hinside : reading.inside.looksInside = false := hreading
      exact toOption_fillItems h.fill_ignores hinside hlength hitems start
  | _ => exact hobject

end Putting

theorem slot_ignoresOrder {decoder : Decoder α} (h : decoder.IgnoresOrder) (name : String)
    (set : α → σ → σ) : (slot name decoder set).IgnoresOrder := by
  intro record reading node other hreading hrelated
  dsimp only [slot]
  rw [toOption_map, toOption_map, h reading node other hreading hrelated]

/-- Slots that set different parts of a record can be filled in either order. -/
theorem slot_swap {β : Type} {decoder : Decoder α} {second : Decoder β} {set : α → σ → σ}
    {reset : β → σ → σ} (h : ∀ x y record, reset y (set x record) = set x (reset y record))
    (name other : String) : (slot name decoder set).Swap (slot other second reset) :=
  fun _ _ _ => swaps_map h

theorem ignore_eq_map (reading : Reading) (name : String) (node : Node) (record : σ) :
    ignore reading name node record = (reading.skip node).map fun _ => record := by
  unfold ignore
  cases reading.skip node <;> rfl

theorem swaps_ignore (change : σ → Except Fault σ) (reading : Reading) (name : String)
    (node : Node) : Swaps change (ignore reading name node) := by
  have hignore : ignore reading name node = fun record : σ =>
      (reading.skip node).map fun _ => record := funext (ignore_eq_map reading name node)
  rw [hignore]
  cases reading.skip node with
  | error fault => exact (swaps_of_fails fault change).symm
  | ok _ => exact (swaps_of_keeps change).symm

/-- Entries that are passed over do not count, in whatever order they come. -/
theorem unordered_ignore {slots : List (Slot σ)} (hslots : ∀ s ∈ slots, s.IgnoresOrder)
    (hswap : slots.Pairwise Slot.Swap) : Unordered slots ignore where
  fill_ignores := hslots
  other_ignores := by
    intro name record reading node other hreading h
    have hskip : reading.skip node = reading.skip other := by
      simp only [Reading.skip, hreading]
      cases h <;> rfl
    dsimp only
    rw [ignore_eq_map, ignore_eq_map, hskip]
  fill_swap := hswap
  fill_other_swap := fun s _ reading name a b => swaps_ignore (s.fill reading a) reading name b
  other_swap := fun reading m n a b _ => swaps_ignore (ignore reading m a) reading n b

end Document.Decoder

namespace Ui

open Document Decoder

/-- What an entry of a named size adds to the two numbers found so far. -/
def Size.noteLength (reading : Reading) (name : String) (node : Node)
    (found : Option UInt32 × Option UInt32) : Except Fault (Option UInt32 × Option UInt32) :=
  if name = "width" then
    if found.1.isSome then .error .mismatched
    else (word reading node).map fun n => (some n, found.2)
  else if name = "height" then
    if found.2.isSome then .error .mismatched
    else (word reading node).map fun n => (found.1, some n)
  else .ok found

def Size.ofFound : Option UInt32 × Option UInt32 → Except Fault Size
  | (some width, some height) => .ok (.named width height)
  | _ => .error .mismatched

theorem namedSize_eq_foldlM (reading : Reading) (found : Option UInt32 × Option UInt32)
    (entries : List (Except Fault String × Node)) :
    namedSize reading found entries =
      entries.foldlM (named (Size.noteLength reading)) found >>= Size.ofFound := by
  induction entries generalizing found with
  | nil => rfl
  | cons entry rest ih =>
      obtain ⟨key, node⟩ := entry
      rw [namedSize, List.foldlM_cons, bind_assoc]
      cases key with
      | error fault => rfl
      | ok name =>
          change _ = (Size.noteLength reading name node found >>= _)
          unfold Size.noteLength
          dsimp only [bind, Except.bind]
          split_ifs
          · rfl
          · cases word reading node with
            | error fault => rfl
            | ok n => exact ih _
          · rfl
          · cases word reading node with
            | error fault => rfl
            | ok n => exact ih _
          · exact ih found

theorem Size.swaps_width_height (reading : Reading) (a b : Node) :
    Swaps (noteLength reading "width" a) (noteLength reading "height" b) := by
  have hwidth : noteLength reading "width" a = fun found =>
      if found.1.isSome then .error .mismatched
      else (word reading a).map fun n => (some n, found.2) := rfl
  have hheight : noteLength reading "height" b = fun found =>
      if found.2.isSome then .error .mismatched
      else (word reading b).map fun n => (found.1, some n) := rfl
  rintro ⟨width, height⟩
  rw [hwidth, hheight]
  cases width <;> cases height <;> cases word reading a <;> cases word reading b <;> rfl

theorem Size.swaps_noteLength (reading : Reading) {m n : String} (h : m ≠ n) (a b : Node) :
    Swaps (noteLength reading m a) (noteLength reading n b) := by
  have hkeeps : ∀ name node, name ≠ "width" → name ≠ "height" →
      noteLength reading name node = Except.ok := by
    intro name node hwidth hheight
    funext found
    rw [noteLength, if_neg hwidth, if_neg hheight]
  by_cases hm : m = "width" ∨ m = "height"
  · by_cases hn : n = "width" ∨ n = "height"
    · rcases hm with rfl | rfl <;> rcases hn with rfl | rfl
      · exact absurd rfl h
      · exact swaps_width_height reading a b
      · exact (swaps_width_height reading b a).symm
      · exact absurd rfl h
    · rw [not_or] at hn
      rw [hkeeps n b hn.1 hn.2]
      exact (swaps_of_keeps _).symm
  · rw [not_or] at hm
    rw [hkeeps m a hm.1 hm.2]
    exact swaps_of_keeps _

theorem Size.decoder_ignoresOrder : Size.decoder.IgnoresOrder := by
  intro reading node other hreading h
  refine toOption_bind_congr (any_ignoresOrder reading node other hreading h) fun _ _ => ?_
  have hword := word_ignoresOrder reading node other hreading h
  cases h with
  | number mark place hsame =>
      exact toOption_bind_congr hword fun _ _ => rfl
  | @array mark place items others hlength hitems =>
      -- Only a list of two is a size, and both trees have the same number of items.
      match items, others, hlength, hitems with
      | [], [], _, _ => rfl
      | [_], [_], _, _ => rfl
      | [width, height], [left, right], _, hitems =>
          obtain ⟨hleft, hright⟩ := List.forall_mem_cons.mp hitems
          refine toOption_bind_congr (word_ignoresOrder reading width left hreading hleft) ?_
          intro _ _
          exact toOption_bind_congr
            (word_ignoresOrder reading height right hreading (hright _ List.mem_cons_self))
            fun _ _ => rfl
      | _ :: _ :: _ :: _, _ :: _ :: _ :: _, _, _ => rfl
  | object mark place hdistinct hkeys hvalues horder =>
      dsimp only
      rw [namedSize_eq_foldlM, namedSize_eq_foldlM]
      refine toOption_bind_congr ?_ fun _ _ => rfl
      refine toOption_foldlM_named Reordered hdistinct hkeys hvalues horder ?_
        (fun m n a b hne => Size.swaps_noteLength reading hne a b) _
      intro name a b found hab
      have hsame := word_ignoresOrder reading a b hreading hab
      unfold Size.noteLength
      split_ifs
      · rfl
      · rw [toOption_map, toOption_map, hsame]
      · rfl
      · rw [toOption_map, toOption_map, hsame]
      · rfl
  | _ => rfl

theorem WindowSpec.unordered : Unordered WindowSpec.slots ignore := by
  have hsize := optional_ignoresOrder Size.decoder_ignoresOrder
  have htext := optional_ignoresOrder text_ignoresOrder
  have hword := optional_ignoresOrder word_ignoresOrder
  have hflag := optional_ignoresOrder flag_ignoresOrder
  refine unordered_ignore ?_ ?_
  · simp only [slots, List.forall_mem_cons]
    exact ⟨slot_ignoresOrder htext _ _, slot_ignoresOrder hword _ _, slot_ignoresOrder hword _ _,
      slot_ignoresOrder hsize _ _, slot_ignoresOrder hsize _ _, slot_ignoresOrder hflag _ _,
      slot_ignoresOrder htext _ _, List.forall_mem_nil _⟩
  · simp only [slots, List.pairwise_cons, List.forall_mem_cons, List.not_mem_nil, false_imp_iff,
      implies_true, List.Pairwise.nil, and_true]
    and_intros
    all_goals
      refine slot_swap ?_ _ _
      intros
      rfl

theorem Element.further_eq_map (reading : Reading) (name : String) (node : Node) (e : Element) :
    further reading name node e = (any reading node).map fun v => e.withField name v := by
  unfold further
  cases any reading node <;> rfl

theorem Element.unordered : Unordered Element.slots Element.further where
  fill_ignores := by
    have htext := optional_ignoresOrder text_ignoresOrder
    have hany := optional_ignoresOrder any_ignoresOrder
    simp only [slots, List.forall_mem_cons]
    exact ⟨slot_ignoresOrder htext _ _, slot_ignoresOrder htext _ _, slot_ignoresOrder hany _ _,
      slot_ignoresOrder hany _ _, List.forall_mem_nil _⟩
  other_ignores := by
    intro name e reading node other hreading h
    dsimp only
    rw [further_eq_map, further_eq_map, toOption_map, toOption_map,
      any_ignoresOrder reading node other hreading h]
  fill_swap := by
    simp only [slots, List.pairwise_cons, List.forall_mem_cons, List.not_mem_nil, false_imp_iff,
      implies_true, List.Pairwise.nil, and_true]
    and_intros
    all_goals
      refine slot_swap ?_ _ _
      intros
      rfl
  fill_other_swap := by
    intro s hs reading name a b
    rw [funext (further_eq_map reading name b)]
    simp only [slots, List.mem_cons, List.not_mem_nil, or_false] at hs
    rcases hs with rfl | rfl | rfl | rfl <;> exact swaps_map fun _ _ _ => rfl
  other_swap := by
    intro reading m n a b hne
    rw [funext (further_eq_map reading m a), funext (further_eq_map reading n b)]
    refine swaps_map fun v w e => ?_
    unfold withField
    rw [Fields.insert_comm e.fields hne]

theorem Graph.decoder_ignoresOrder : Graph.decoder.IgnoresOrder := by
  refine (unordered_ignore ?_ ?_).record_ignoresOrder _
  · have hwindow := optional_ignoresOrder (WindowSpec.unordered.record_ignoresOrder {})
    have helements := list_ignoresOrder (Element.unordered.object_ignoresOrder {})
    simp only [slots, List.forall_mem_cons]
    exact ⟨slot_ignoresOrder text_ignoresOrder _ _, slot_ignoresOrder hwindow _ _,
      slot_ignoresOrder helements _ _, List.forall_mem_nil _⟩
  · simp only [slots, List.pairwise_cons, List.forall_mem_cons, List.not_mem_nil, false_imp_iff,
      implies_true, List.Pairwise.nil, and_true]
    and_intros
    all_goals
      refine slot_swap ?_ _ _
      intros
      rfl

end Ui

namespace Relation

open Document Decoder

theorem Script.unordered : Unordered Script.slots ignore := by
  have hany := optional_ignoresOrder any_ignoresOrder
  refine unordered_ignore ?_ ?_
  · simp only [slots, List.forall_mem_cons]
    exact ⟨slot_ignoresOrder hany _ _, slot_ignoresOrder hany _ _, List.forall_mem_nil _⟩
  · refine List.pairwise_pair.mpr (slot_swap ?_ _ _)
    intros
    rfl

theorem Graph.decoder_ignoresOrder : Graph.decoder.IgnoresOrder := by
  refine (unordered_ignore ?_ (List.pairwise_singleton _ _)).record_ignoresOrder _
  have hscripts := list_ignoresOrder (Script.unordered.record_ignoresOrder {})
  exact List.forall_mem_singleton.mpr (slot_ignoresOrder hscripts _ _)

end Relation

/-- Both texts are JSON documents, and their values are the same up to the order of the entries of
objects, none of which gives a key twice. -/
def Json.SameUpToKeyOrder (text other : String) : Prop :=
  ∃ left right, Json.read text = (left, none) ∧ Json.read other = (right, none) ∧
    Document.Reordered left right

namespace Document

/-- Texts that only differ in the order of keys are read alike. -/
theorem parse_same {α : Type} {decoder : Decoder α} (hdecoder : decoder.IgnoresOrder)
    {text other : String} (h : Json.SameUpToKeyOrder text other) (result : α) :
    parse decoder .json text = .ok result ↔ parse decoder .json other = .ok result := by
  obtain ⟨left, right, hleft, hright, hsame⟩ := h
  rw [parse_json_iff hleft, parse_json_iff hright, ← toOption_eq_some_iff, ← toOption_eq_some_iff,
    hdecoder jsonReading left right rfl hsame]

open Compilation in
/-- The order of keys is of no account. Of two texts that differ in nothing else, either both are
refused or both are read as the same graph, so they compile to the same program or fail with the
same error, with the same notes. -/
theorem key_order_is_irrelevant (page page' scripts scripts' : String)
    (hpage : Json.SameUpToKeyOrder page page')
    (hscripts : Json.SameUpToKeyOrder scripts scripts') :
    (∀ ui, parse Ui.Graph.decoder .json page = .ok ui ↔
      parse Ui.Graph.decoder .json page' = .ok ui) ∧
    (∀ relation, parse Relation.Graph.decoder .json scripts = .ok relation ↔
      parse Relation.Graph.decoder .json scripts' = .ok relation) ∧
    ∀ ui ui' relation relation',
      parse Ui.Graph.decoder .json page = .ok ui →
      parse Ui.Graph.decoder .json page' = .ok ui' →
      parse Relation.Graph.decoder .json scripts = .ok relation →
      parse Relation.Graph.decoder .json scripts' = .ok relation' →
      Resolution.ofRelation Responders.builtin relation' =
        Resolution.ofRelation Responders.builtin relation ∧
      compose Translators.builtin ui' (resolveActions relation') =
        compose Translators.builtin ui (resolveActions relation) := by
  have hui := parse_same Ui.Graph.decoder_ignoresOrder hpage
  have hrelation := parse_same Relation.Graph.decoder_ignoresOrder hscripts
  refine ⟨hui, hrelation, ?_⟩
  intro ui ui' relation relation' h h' hr hr'
  obtain rfl := Except.ok.inj (((hui ui).mp h).symm.trans h')
  obtain rfl := Except.ok.inj (((hrelation relation).mp hr).symm.trans hr')
  exact ⟨rfl, rfl⟩

def arrangedDocument : Value :=
  .object [
    ("window", .object [("width", .number (.natural 3)), ("title", .text "T")]),
    ("elements", .array [.object [("kind", .text "text"), ("value", .text "Hi"), ("z", .null)]]),
    ("scripts", .array [.object [("action_id", .text "go"), ("response", .text "Hi")]])]

/-- The same with the keys of every object in another order. -/
def shuffledDocument : Value :=
  .object [
    ("scripts", .array [.object [("response", .text "Hi"), ("action_id", .text "go")]]),
    ("elements", .array [.object [("z", .null), ("value", .text "Hi"), ("kind", .text "text")]]),
    ("window", .object [("title", .text "T"), ("width", .number (.natural 3))])]

theorem key_order_is_irrelevant_shuffled :
    ∃ ui relation,
      Json.SameUpToKeyOrder (Json.compact arrangedDocument) (Json.compact shuffledDocument) ∧
      parse Ui.Graph.decoder .json (Json.compact arrangedDocument) = .ok ui ∧
      ui.elements.map Ui.Element.kind? = [some "text"] ∧
      parse Ui.Graph.decoder .json (Json.compact shuffledDocument) = .ok ui ∧
      parse Relation.Graph.decoder .json (Json.compact arrangedDocument) = .ok relation ∧
      relation.scripts.map Relation.Script.action? = [some "go"] ∧
      parse Relation.Graph.decoder .json (Json.compact shuffledDocument) = .ok relation := by
  have hsame : Json.SameUpToKeyOrder (Json.compact arrangedDocument)
      (Json.compact shuffledDocument) := by
    refine ⟨.object 1
        [(.ok "window", .object 11
            [(.ok "width", .number 20 (.ok (.natural 3))), (.ok "title", .text 30 (.ok "T"))] none),
          (.ok "elements", .array 46
            [.object 47 [(.ok "kind", .text 55 (.ok "text")), (.ok "value", .text 70 (.ok "Hi")),
              (.ok "z", .null 79)] none] none),
          (.ok "scripts", .array 96
            [.object 97 [(.ok "action_id", .text 110 (.ok "go")),
              (.ok "response", .text 126 (.ok "Hi"))] none] none)] none,
      .object 1
        [(.ok "scripts", .array 12
            [.object 13 [(.ok "response", .text 25 (.ok "Hi")),
              (.ok "action_id", .text 42 (.ok "go"))] none] none),
          (.ok "elements", .array 60
            [.object 61 [(.ok "z", .null 66), (.ok "value", .text 79 (.ok "Hi")),
              (.ok "kind", .text 91 (.ok "text"))] none] none),
          (.ok "window", .object 109
            [(.ok "title", .text 118 (.ok "T")), (.ok "width", .number 130 (.ok (.natural 3)))]
            none)] none, ?_, ?_, ?_⟩
    · rw [Json.read, Json.tokens_compact]
      rfl
    · rw [Json.read, Json.tokens_compact]
      rfl
    · have hitem : ∀ {mark place : Nat} {item other : Node}, Reordered item other →
          Reordered (.array mark [item] none) (.array place [other] none) :=
        fun h => .array _ _ rfl (List.forall_mem_singleton.mpr h)
      have hreversed : ∀ {mark place : Nat} {entries others : List (Except Fault String × Node)},
          (entries.filterMap keyOf).Nodup → entries.map keyOf = others.reverse.map keyOf →
          (∀ pair ∈ entries.zip others.reverse, Reordered pair.1.2 pair.2.2) →
          Reordered (.object mark entries none) (.object place others none) :=
        fun hdistinct hkeys hvalues => .object _ _ hdistinct hkeys hvalues (List.reverse_perm _)
      refine hreversed (by decide) rfl (List.forall_mem_cons.mpr ⟨?_,
        List.forall_mem_cons.mpr ⟨hitem ?_, List.forall_mem_singleton.mpr (hitem ?_)⟩⟩)
      · exact hreversed (by decide) rfl (List.forall_mem_cons.mpr ⟨.number _ _ rfl,
          List.forall_mem_singleton.mpr (.text _ _ rfl)⟩)
      · exact hreversed (by decide) rfl (List.forall_mem_cons.mpr ⟨.text _ _ rfl,
          List.forall_mem_cons.mpr ⟨.text _ _ rfl, List.forall_mem_singleton.mpr (.null _ _)⟩⟩)
      · exact hreversed (by decide) rfl (List.forall_mem_cons.mpr ⟨.text _ _ rfl,
          List.forall_mem_singleton.mpr (.text _ _ rfl)⟩)
  have hui : ((parse Ui.Graph.decoder .json (Json.compact arrangedDocument)).toOption.map fun ui =>
      ui.elements.map Ui.Element.kind?) = some [some "text"] := by
    rw [parse, decodeJson, Json.read, Json.tokens_compact]
    decide +kernel
  have hrelation : ((parse Relation.Graph.decoder .json
      (Json.compact arrangedDocument)).toOption.map fun relation =>
        relation.scripts.map Relation.Script.action?) = some [some "go"] := by
    rw [parse, decodeJson, Json.read, Json.tokens_compact]
    decide +kernel
  obtain ⟨ui, hread, hkinds⟩ := Option.map_eq_some_iff.mp hui
  obtain ⟨relation, hreadScripts, hactions⟩ := Option.map_eq_some_iff.mp hrelation
  rw [toOption_eq_some_iff] at hread hreadScripts
  obtain ⟨hpages, hscripts, _⟩ := key_order_is_irrelevant _ _ _ _ hsame hsame
  exact ⟨ui, relation, hsame, hread, hkinds, (hpages ui).mp hread, hreadScripts, hactions,
    (hscripts relation).mp hreadScripts⟩

end Document

end GioForge
