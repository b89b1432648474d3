import GioForge.Document.Decode
import GioForge.Proofs.Component.Builtin
import GioForge.Proofs.Json.Reading

/-!
Untyped data and the trees it is read from. A value can be read back from a tree that
shows it if it fits: there is room for its containers, and the entries of its objects are
in key order. Whatever was read from a tree fits, so reading it back gives it again.
-/

namespace GioForge

theorem ok_of_map {ε α β : Type} {first : Except ε α} {f : α → β} {result : β}
    (h : first.map f = .ok result) : ∃ value, first = .ok value ∧ f value = result := by
  cases first with
  | error e => cases h
  | ok value => exact ⟨value, rfl, Except.ok.inj h⟩

namespace Fields

/-- Keys in order, each once. -/
def Sorted (fields : Fields) : Prop :=
  fields.Pairwise fun a b => a.1 < b.1

theorem insert_of_forall_lt {fields : Fields} {name : String} {value : Value}
    (h : ∀ field ∈ fields, field.1 < name) :
    fields.insert name value = fields ++ [(name, value)] := by
  induction fields with
  | nil => rfl
  | cons field rest ih =>
      obtain ⟨hfield, hrest⟩ := List.forall_mem_cons.mp h
      have hne : name ≠ field.1 := by
        rintro rfl
        exact String.lt_irrefl _ hfield
      rw [insert, if_neg (String.lt_asymm hfield), if_neg hne, ih hrest, List.cons_append]

theorem mem_insert {fields : Fields} {name : String} {value : Value} {field : String × Value}
    (h : field ∈ fields.insert name value) : field = (name, value) ∨ field ∈ fields := by
  induction fields with
  | nil => exact .inl (List.mem_singleton.mp h)
  | cons first rest ih =>
      unfold insert at h
      split_ifs at h with hlt heq
      · exact List.mem_cons.mp h
      · obtain h | h := List.mem_cons.mp h
        · exact .inl h
        · exact .inr (List.mem_cons_of_mem _ h)
      · obtain rfl | h := List.mem_cons.mp h
        · exact .inr List.mem_cons_self
        · exact (ih h).imp_right (List.mem_cons_of_mem _)

theorem Sorted.insert {fields : Fields} (h : fields.Sorted) (name : String) (value : Value) :
    (fields.insert name value).Sorted := by
  induction fields with
  | nil => exact List.pairwise_singleton _ _
  | cons first rest ih =>
      obtain ⟨hfirst, hrest⟩ := List.pairwise_cons.mp h
      unfold Fields.insert
      split_ifs with hlt heq
      · refine List.pairwise_cons.mpr ⟨?_, h⟩
        intro field hfield
        obtain rfl | hfield := List.mem_cons.mp hfield
        · exact hlt
        · exact String.lt_trans hlt (hfirst field hfield)
      · subst heq
        exact List.pairwise_cons.mpr ⟨hfirst, hrest⟩
      · refine List.pairwise_cons.mpr ⟨?_, ih hrest⟩
        intro field hfield
        obtain rfl | hfield := mem_insert hfield
        · exact Std.lt_of_le_of_ne hlt (Ne.symm heq)
        · exact hfirst field hfield

end Fields

namespace Value

mutual

/-- At most `room` containers lie inside each other, and objects are in key order. -/
def Fits (room : Nat) : Value → Prop
  | .array items => room ≠ 0 ∧ AllFit (room - 1) items
  | .object entries => room ≠ 0 ∧ Fields.Sorted entries ∧ EntriesFit (room - 1) entries
  | _ => True

def AllFit (room : Nat) : List Value → Prop
  | [] => True
  | item :: rest => item.Fits room ∧ AllFit room rest

def EntriesFit (room : Nat) : List (String × Value) → Prop
  | [] => True
  | (_, value) :: rest => value.Fits room ∧ EntriesFit room rest

end

theorem entriesFit_iff {room : Nat} {entries : List (String × Value)} :
    EntriesFit room entries ↔ ∀ entry ∈ entries, entry.2.Fits room := by
  induction entries with
  | nil => simp [EntriesFit]
  | cons entry rest ih => simp [EntriesFit, ih]

theorem EntriesFit.insert {room : Nat} {fields : Fields} (h : EntriesFit room fields)
    {name : String} {value : Value} (hvalue : value.Fits room) :
    EntriesFit room (fields.insert name value) := by
  refine entriesFit_iff.mpr fun field hfield => ?_
  obtain rfl | hfield := Fields.mem_insert hfield
  · exact hvalue
  · exact entriesFit_iff.mp h field hfield

theorem allWhole_iff {items : List Value} : AllWhole items ↔ ∀ item ∈ items, item.IsWhole := by
  induction items with
  | nil => simp [AllWhole]
  | cons item rest ih => simp [AllWhole, ih]

theorem entriesWhole_iff {entries : List (String × Value)} :
    EntriesWhole entries ↔ ∀ entry ∈ entries, entry.2.IsWhole := by
  induction entries with
  | nil => simp [EntriesWhole]
  | cons entry rest ih => simp [EntriesWhole, ih]

theorem EntriesWhole.insert {fields : Fields} (h : EntriesWhole fields)
    {name : String} {value : Value} (hvalue : value.IsWhole) :
    EntriesWhole (fields.insert name value) := by
  refine entriesWhole_iff.mpr fun field hfield => ?_
  obtain rfl | hfield := Fields.mem_insert hfield
  · exact hvalue
  · exact entriesWhole_iff.mp h field hfield

/-- Data that is read back as it is where null stands for nothing. -/
structure Kept (room : Nat) (v : Value) : Prop where
  isNull : v.isNull = false
  isWhole : v.IsWhole
  fits : v.Fits room

end Value

namespace Document.Node

open Value

mutual

/-- A value that fits in the room is what its showing node stands for. -/
theorem value_of_shows : ∀ {v : Value} {node : Node} {room : Nat},
    Shows v node → v.Fits room → node.value (some room) = .ok v
  | .null, .null _, _, _, _ => rfl
  | .bool b, .bool _ c, _, h, _ => by
      obtain rfl : c = b := h
      rfl
  | .number n, .number _ m, _, h, _ => by
      obtain rfl : m = .ok n := h
      rfl
  | .text s, .text _ t, _, h, _ => by
      obtain rfl : t = .ok s := h
      rfl
  | .array items, .array mark nodes ending, room, h, hfits => by
      obtain ⟨hshow, rfl⟩ := h
      rw [value, if_neg (by simpa using hfits.1)]
      change (values (some (room - 1)) nodes >>= _) = _
      rw [values_of_shows hshow hfits.2]
      rfl
  | .object entries, .object mark nodes ending, room, h, hfits => by
      obtain ⟨hshow, rfl⟩ := h
      rw [value, if_neg (by simpa using hfits.1)]
      change (fields (some (room - 1)) [] nodes >>= _) = _
      rw [fields_of_shows hshow hfits.2.2 (show Fields.Sorted ([] ++ entries) from hfits.2.1)]
      rfl

theorem values_of_shows : ∀ {items : List Value} {nodes : List Node} {room : Nat},
    ShowItems items nodes → AllFit room items → values (some room) nodes = .ok items
  | [], nodes, room, h, _ => by
      obtain rfl : nodes = [] := h
      rfl
  | item :: rest, nodes, room, h, hfits => by
      obtain ⟨node, more, rfl, hitem, hrest⟩ := h
      rw [values, value_of_shows hitem hfits.1, values_of_shows hrest hfits.2]
      rfl

theorem fields_of_shows : ∀ {entries : List (String × Value)}
    {nodes : List (Except Fault String × Node)} {room : Nat} {done : Fields},
    ShowEntries entries nodes → EntriesFit room entries → Fields.Sorted (done ++ entries) →
      fields (some room) done nodes = .ok (done ++ entries)
  | [], nodes, room, done, h, _, _ => by
      obtain rfl : nodes = [] := h
      rw [List.append_nil]
      rfl
  | (key, v) :: rest, nodes, room, done, h, hfits, hsorted => by
      obtain ⟨node, more, rfl, hvalue, hrest⟩ := h
      have hlast : done.insert key v = done ++ [(key, v)] := by
        apply Fields.insert_of_forall_lt
        intro field hfield
        exact (List.pairwise_append.mp hsorted).2.2 field hfield (key, v) List.mem_cons_self
      rw [List.append_cons] at hsorted ⊢
      rw [← fields_of_shows hrest hfits.2 hsorted, fields]
      change (value (some room) node >>= _) = _
      rw [value_of_shows hvalue hfits.1, ← hlast]
      rfl

end

theorem finish_eq_ok {ending : Option Break} (h : finish ending = .ok ()) : ending = none := by
  cases ending with
  | none => rfl
  | some place => cases h

/-- An array that was read had room, no fault, and values for all its items. -/
theorem value_array_ok {mark : Nat} {items : List Node} {ending : Option Break}
    {room : Option Nat} {v : Value} (h : (Node.array mark items ending).value room = .ok v) :
    room ≠ some 0 ∧ ending = none ∧
      ∃ vs, values (room.map (· - 1)) items = .ok vs ∧ v = .array vs := by
  rw [value] at h
  split_ifs at h with hroom
  · cases h
  · obtain ⟨vs, hvs, h⟩ := ok_of_bind h
    obtain ⟨_, hend, h⟩ := ok_of_bind h
    exact ⟨hroom, finish_eq_ok hend, vs, hvs, (Except.ok.inj h).symm⟩

theorem value_object_ok {mark : Nat} {entries : List (Except Fault String × Node)}
    {ending : Option Break} {room : Option Nat} {v : Value}
    (h : (Node.object mark entries ending).value room = .ok v) :
    room ≠ some 0 ∧ ending = none ∧
      ∃ fs, fields (room.map (· - 1)) [] entries = .ok fs ∧ v = .object fs := by
  rw [value] at h
  split_ifs at h with hroom
  · cases h
  · obtain ⟨fs, hfs, h⟩ := ok_of_bind h
    obtain ⟨_, hend, h⟩ := ok_of_bind h
    exact ⟨hroom, finish_eq_ok hend, fs, hfs, (Except.ok.inj h).symm⟩

mutual

/-- What is read within bounds fits into them, has no numbers of its own, and would be the same
without the bounds. -/
theorem value_ok : ∀ {node : Node} {room : Nat} {v : Value}, node.value (some room) = .ok v →
    v.Fits room ∧ (node.IsWhole → v.IsWhole) ∧ node.value none = .ok v
  | .null _, _, _, h => by
      obtain rfl := Except.ok.inj h
      exact ⟨trivial, fun _ => trivial, rfl⟩
  | .bool _ _, _, _, h => by
      obtain rfl := Except.ok.inj h
      exact ⟨trivial, fun _ => trivial, rfl⟩
  | .number _ n, _, _, h => by
      obtain ⟨n, rfl, rfl⟩ := ok_of_map h
      exact ⟨trivial, id, rfl⟩
  | .text _ s, _, _, h => by
      obtain ⟨s, rfl, rfl⟩ := ok_of_map h
      exact ⟨trivial, fun _ => trivial, rfl⟩
  | .unbounded _, _, _, h => by
      obtain rfl := Except.ok.inj h
      exact ⟨trivial, fun _ => trivial, rfl⟩
  | .array mark items ending, room, v, h => by
      obtain ⟨hroom, rfl, vs, hvs, rfl⟩ := value_array_ok h
      obtain ⟨hfit, hwhole, hsame⟩ := values_ok hvs
      refine ⟨⟨fun hzero => hroom (congrArg some hzero), hfit⟩, hwhole, ?_⟩
      change (values none items >>= _) = _
      rw [hsame]
      rfl
  | .object mark entries ending, room, v, h => by
      obtain ⟨hroom, rfl, fs, hfs, rfl⟩ := value_object_ok h
      obtain ⟨hsorted, hfit, hwhole, hsame⟩ := fields_ok hfs
      refine ⟨⟨fun hzero => hroom (congrArg some hzero), hsorted List.Pairwise.nil, hfit trivial⟩,
        hwhole trivial, ?_⟩
      change (fields none [] entries >>= _) = _
      rw [hsame]
      rfl
  | .broken _ _, _, _, h => by cases h

theorem values_ok : ∀ {nodes : List Node} {room : Nat} {vs : List Value},
    values (some room) nodes = .ok vs →
      Value.AllFit room vs ∧ (AllWhole nodes → Value.AllWhole vs) ∧ values none nodes = .ok vs
  | [], _, _, h => by
      obtain rfl := Except.ok.inj h
      exact ⟨trivial, id, rfl⟩
  | node :: rest, room, vs, h => by
      obtain ⟨first, hfirst, h⟩ := ok_of_bind h
      obtain ⟨others, hothers, h⟩ := ok_of_bind h
      obtain rfl := Except.ok.inj h
      obtain ⟨hfit, hwhole, hsame⟩ := value_ok hfirst
      obtain ⟨hfits, hwholes, hsames⟩ := values_ok hothers
      refine ⟨⟨hfit, hfits⟩, And.imp hwhole hwholes, ?_⟩
      rw [values, hsame, hsames]
      rfl

theorem fields_ok : ∀ {nodes : List (Except Fault String × Node)} {room : Nat} {done fs : Fields},
    fields (some room) done nodes = .ok fs →
      (done.Sorted → fs.Sorted) ∧ (Value.EntriesFit room done → Value.EntriesFit room fs) ∧
      (Value.EntriesWhole done → EntriesWhole nodes → Value.EntriesWhole fs) ∧
      fields none done nodes = .ok fs
  | [], _, _, _, h => by
      obtain rfl := Except.ok.inj h
      exact ⟨id, id, fun hdone _ => hdone, rfl⟩
  | (key, node) :: rest, room, done, fs, h => by
      obtain ⟨name, rfl, hafter⟩ := ok_of_bind h
      obtain ⟨v, hv, hmore⟩ := ok_of_bind hafter
      obtain ⟨hfit, hwhole, hsame⟩ := value_ok hv
      obtain ⟨hsorted, hfits, hwholes, hsames⟩ := fields_ok hmore
      refine ⟨fun hdone => hsorted (hdone.insert name v), ?_, ?_, ?_⟩
      · intro hdone
        exact hfits (Value.EntriesFit.insert hdone hfit)
      · rintro hdone ⟨hnode, hrest⟩
        exact hwholes (Value.EntriesWhole.insert hdone (hwhole hnode)) hrest
      · rw [← hsames, fields]
        change (value none node >>= _) = _
        rw [hsame]
        rfl

end

theorem isNull_value {node : Node} (hwhole : node.IsWhole) {room : Option Nat} {v : Value}
    (h : node.value room = .ok v) (hnull : ∀ mark, node ≠ .null mark) : v.isNull = false := by
  cases node with
  | null mark => exact absurd rfl (hnull mark)
  | unbounded mark => exact hwhole.elim
  | bool mark b =>
      obtain rfl := Except.ok.inj h
      rfl
  | number mark n =>
      obtain ⟨m, -, rfl⟩ := ok_of_map h
      rfl
  | text mark s =>
      obtain ⟨t, -, rfl⟩ := ok_of_map h
      rfl
  | array mark items ending =>
      obtain ⟨-, -, vs, -, rfl⟩ := value_array_ok h
      rfl
  | object mark entries ending =>
      obtain ⟨-, -, fs, -, rfl⟩ := value_object_ok h
      rfl
  | broken mark place => cases h

end Document.Node

namespace Document.Decoder

/-- A value that was read fits in the room, and would be read with no bound on the depth. -/
theorem any_ok {reading : Reading} {room : Nat} (hroom : reading.room = some room) {node : Node}
    {v : Value} (h : any reading node = .ok v) :
    v.Fits room ∧ (node.IsWhole → v.IsWhole) ∧ node.value none = .ok v := by
  unfold any at h
  rw [hroom] at h
  exact Node.value_ok h

theorem optional_any_kept {reading : Reading} {room : Nat} (hroom : reading.room = some room)
    {node : Node} (hwhole : node.IsWhole) {found : Option Value}
    (h : optional any reading node = .ok found) : ∀ v, found = some v → v.Kept room := by
  rintro v rfl
  unfold optional at h
  split at h
  · cases h
  · next hnull =>
      obtain ⟨w, hw, hv⟩ := ok_of_map h
      obtain rfl := Option.some.inj hv
      obtain ⟨hfits, hnumbers, -⟩ := any_ok hroom hw
      exact ⟨Node.isNull_value hwhole hw hnull, hnumbers hwhole, hfits⟩

end Document.Decoder

end GioForge
