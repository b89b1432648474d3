import GioForge.Document.Decode
import GioForge.Proofs.Compilation.Translation
import GioForge.Proofs.Document.Values
import Mathlib.Data.List.Induction

/-!
Records and the trees they are decoded from. A record in the making goes through the
members of its tree one after the other, be they entries with a key or items at the place
of a field. So what holds of the empty record and is kept by every member holds of the
record, and of members with one name the last decides.

In the other direction, a record is decoded from a tree that shows its entries if they
lead to it one after the other and no key is given twice.
-/

namespace GioForge.Document

def namedEntries (entries : List (Except Fault String × Node)) : List (String × Node) :=
  entries.filterMap fun entry => entry.1.toOption.map fun name => (name, entry.2)

theorem namedEntries_cons (name : String) (node : Node)
    (rest : List (Except Fault String × Node)) :
    namedEntries ((.ok name, node) :: rest) = (name, node) :: namedEntries rest :=
  rfl

/-- The members of a record's tree, with the fields that the items of a list stand for. -/
def Node.members (names : List String) : Node → List (String × Node)
  | .object _ entries _ => namedEntries entries
  | .array _ items _ => names.zip items
  | _ => []

def Node.member? (names : List String) (name : String) (node : Node) : Option Node :=
  (node.members names).reverse.lookup name

/-- The last member of a name, unless it is null. -/
def Node.given? (names : List String) (name : String) (node : Node) : Option Node :=
  match node.member? names name with
  | some (.null _) => none
  | found => found

def Node.items : Node → List Node
  | .array _ items _ => items
  | _ => []

/-- The items of the list that the last member of a name is. -/
def Node.listed (names : List String) (name : String) (node : Node) : List Node :=
  (node.member? names name).elim [] Node.items

theorem Node.IsWhole.members {node : Node} (h : node.IsWhole) {names : List String}
    {member : String × Node} (hmember : member ∈ node.members names) : member.2.IsWhole := by
  cases node with
  | array mark items ending =>
      exact Node.allWhole_iff.mp h member.2 (List.of_mem_zip hmember).2
  | object mark entries ending =>
      obtain ⟨entry, hentry, hnamed⟩ := List.mem_filterMap.mp hmember
      obtain ⟨name, -, rfl⟩ := Option.map_eq_some_iff.mp hnamed
      exact Node.entriesWhole_iff.mp h entry hentry
  | _ => cases hmember

theorem Node.IsWhole.items {node : Node} (h : node.IsWhole) {item : Node}
    (hitem : item ∈ node.items) : item.IsWhole := by
  cases node with
  | array mark items ending => exact Node.allWhole_iff.mp h item hitem
  | _ => cases hitem

theorem Node.IsWhole.listed {node : Node} (h : node.IsWhole) {names : List String} {name : String}
    {item : Node} (hitem : item ∈ node.listed names name) : item.IsWhole := by
  unfold Node.listed Node.member? at hitem
  cases hmember : (node.members names).reverse.lookup name with
  | none =>
      rw [hmember] at hitem
      cases hitem
  | some member =>
      rw [hmember] at hitem
      obtain ⟨before, after, hmembers, -⟩ := List.lookup_eq_some_iff.mp hmember
      have hmem : (name, member) ∈ node.members names := by
        rw [← List.mem_reverse, hmembers]
        exact List.mem_append_right _ List.mem_cons_self
      exact (h.members hmem).items hitem

theorem shows_number {n : Number} {node : Node} (h : Shows (.number n) node) :
    ∃ mark, node = .number mark (.ok n) := by
  cases node with
  | number mark m =>
      obtain rfl : m = .ok n := h
      exact ⟨mark, rfl⟩
  | _ => exact h.elim

theorem shows_array {values : List Value} {node : Node} (h : Shows (.array values) node) :
    ∃ mark nodes, node = .array mark nodes none ∧ ShowItems values nodes := by
  cases node with
  | array mark nodes ending =>
      obtain ⟨hnodes, rfl⟩ := h
      exact ⟨mark, nodes, rfl, hnodes⟩
  | _ => exact h.elim

theorem shows_object {values : List (String × Value)} {node : Node}
    (h : Shows (.object values) node) :
    ∃ mark nodes, node = .object mark nodes none ∧ ShowEntries values nodes := by
  cases node with
  | object mark nodes ending =>
      obtain ⟨hnodes, rfl⟩ := h
      exact ⟨mark, nodes, rfl, hnodes⟩
  | _ => exact h.elim

def Reading.inside (reading : Reading) : Reading :=
  { reading with room := reading.room.map (· - 1) }

theorem Reading.room_inside {reading : Reading} {room : Nat}
    (h : reading.room = some (room + 1)) : reading.inside.room = some room := by
  unfold Reading.inside
  rw [h]
  rfl

theorem Reading.enter_eq_ok {reading inner : Reading} {mark : Nat} :
    reading.enter mark = .ok inner ↔ reading.room ≠ some 0 ∧ inner = reading.inside := by
  unfold Reading.enter
  split_ifs with h
  · exact ⟨nofun, fun hinner => absurd h hinner.1⟩
  · exact ⟨fun hinner => ⟨h, (Except.ok.inj hinner).symm⟩, fun hinner => by rw [hinner.2]; rfl⟩

namespace Decoder

variable {σ α : Type}

/-- What a member does to a record in the making. -/
def put (reading : Reading) (slots : List (Slot σ)) (other : Other σ) (record : σ)
    (member : String × Node) : Except Fault σ :=
  match slots.find? fun s => s.name = member.1 with
  | some s => s.fill reading member.2 record
  | none => other reading member.1 member.2 record

def names (slots : List (Slot σ)) : List String :=
  slots.map Slot.name

section Putting

variable {reading : Reading} {slots : List (Slot σ)} {other : Other σ}

/-- A record that was read has had its entries put one after the other. -/
theorem foldlM_put_of_fillEntries {seen : List String} {start result : σ}
    {entries : List (Except Fault String × Node)}
    (h : fillEntries reading slots other seen start entries = .ok result) :
    (namedEntries entries).foldlM (put reading slots other) start = .ok result := by
  induction entries generalizing seen start with
  | nil => exact h
  | cons entry rest ih =>
      obtain ⟨key, node⟩ := entry
      obtain ⟨name, rfl, hafter⟩ := ok_of_bind h
      have hput : ∃ next more, put reading slots other start (name, node) = .ok next ∧
          fillEntries reading slots other more next rest = .ok result := by
        unfold put
        cases hfind : slots.find? fun s => s.name = name with
        | none =>
            rw [hfind] at hafter
            obtain ⟨next, hnext, hmore⟩ := ok_of_bind hafter
            exact ⟨next, seen, hnext, hmore⟩
        | some s =>
            rw [hfind] at hafter
            dsimp only at hafter
            split_ifs at hafter with hseen
            · cases hafter
            · obtain ⟨next, hnext, hmore⟩ := ok_of_bind hafter
              exact ⟨next, name :: seen, hnext, hmore⟩
      obtain ⟨next, more, hnext, hmore⟩ := hput
      rw [namedEntries_cons, List.foldlM_cons, hnext]
      exact ih hmore

theorem find?_of_nodup (hnames : (names slots).Nodup) {s : Slot σ} (hs : s ∈ slots) :
    (slots.find? fun t => t.name = s.name) = some s := by
  induction slots with
  | nil => cases hs
  | cons first rest ih =>
      obtain ⟨hfirst, hrest⟩ := List.nodup_cons.mp hnames
      obtain rfl | hs := List.mem_cons.mp hs
      · exact List.find?_cons_of_pos (decide_eq_true rfl)
      · have hne : first.name ≠ s.name := by
          intro heq
          exact hfirst (heq ▸ List.mem_map_of_mem hs)
        rw [List.find?_cons_of_neg (by simpa using hne), ih hrest hs]

/-- A record written as a list has had its entries put as if each had its name. -/
theorem foldlM_put_of_fillItems (hnames : (names slots).Nodup) {left : List (Slot σ)}
    (hleft : ∀ s ∈ left, s ∈ slots) {start result : σ} {items : List Node}
    (h : fillItems reading start left items = .ok result) :
    ((names left).zip items).foldlM (put reading slots other) start = .ok result := by
  induction left generalizing start items with
  | nil =>
      cases items with
      | nil => exact h
      | cons item rest =>
          rw [fillItems] at h
          split_ifs at h
          exact h
  | cons s more ih =>
      cases items with
      | nil => exact h
      | cons item rest =>
          obtain ⟨hs, hmore⟩ := List.forall_mem_cons.mp hleft
          obtain ⟨next, hnext, hrest⟩ := ok_of_bind h
          have hput : put reading slots other start (s.name, item) = .ok next := by
            unfold put
            rw [find?_of_nodup hnames hs]
            exact hnext
          have hzip : (names (s :: more)).zip (item :: rest) =
              (s.name, item) :: (names more).zip rest := rfl
          rw [hzip, List.foldlM_cons, hput]
          exact ih hmore hrest

/-- However the entries are named, a record that was read has had them put in turn. -/
theorem object_ok {start result : σ} {node : Node}
    (h : object start slots other reading node = .ok result) (names : List String) :
    (node.members names).foldlM (put reading.inside slots other) start = .ok result := by
  cases node with
  | object mark entries ending =>
      obtain ⟨inner, hinner, hafter⟩ := ok_of_bind h
      obtain ⟨-, rfl⟩ := Reading.enter_eq_ok.mp hinner
      obtain ⟨record, hrecord, hlast⟩ := ok_of_bind hafter
      obtain ⟨_, _, hresult⟩ := ok_of_bind hlast
      obtain rfl := Except.ok.inj hresult
      exact foldlM_put_of_fillEntries hrecord
  | _ => cases h

theorem record_ok (hnames : (names slots).Nodup) {start result : σ} {node : Node}
    (h : record start slots other reading node = .ok result) :
    (node.members (names slots)).foldlM (put reading.inside slots other) start = .ok result := by
  cases node with
  | array mark items ending =>
      obtain ⟨inner, hinner, hafter⟩ := ok_of_bind h
      obtain ⟨-, rfl⟩ := Reading.enter_eq_ok.mp hinner
      obtain ⟨record, hrecord, hlast⟩ := ok_of_bind hafter
      obtain ⟨_, _, hresult⟩ := ok_of_bind hlast
      obtain rfl := Except.ok.inj hresult
      exact foldlM_put_of_fillItems hnames (fun _ hs => hs) hrecord
  | object mark entries ending =>
      have hobject :
          object start slots other reading (.object mark entries ending) = .ok result := h
      exact object_ok hobject _
  | _ => cases h

/-- An entry fills the slot of its name, or is dealt with as one that has none. -/
theorem put_ok {record result : σ} {member : String × Node}
    (h : put reading slots other record member = .ok result) :
    (∃ s ∈ slots, s.name = member.1 ∧ s.fill reading member.2 record = .ok result) ∨
      member.1 ∉ names slots ∧ other reading member.1 member.2 record = .ok result := by
  unfold put at h
  cases hfind : slots.find? fun s => s.name = member.1 with
  | some s =>
      rw [hfind] at h
      exact .inl ⟨s, List.mem_of_find?_eq_some hfind, by simpa using List.find?_some hfind, h⟩
  | none =>
      rw [hfind] at h
      refine .inr ⟨?_, h⟩
      intro hname
      obtain ⟨s, hs, heq⟩ := List.mem_map.mp hname
      exact List.find?_eq_none.mp hfind s hs (decide_eq_true heq)

/-- What every member keeps. -/
theorem foldlM_put_invariant {P : σ → Prop} {members : List (String × Node)} {start result : σ}
    (hput : ∀ member ∈ members, ∀ a b, P a → put reading slots other a member = .ok b → P b)
    (h : members.foldlM (put reading slots other) start = .ok result) (hstart : P start) :
    P result := by
  induction members generalizing start with
  | nil =>
      obtain rfl := Except.ok.inj h
      exact hstart
  | cons member rest ih =>
      obtain ⟨hfirst, hrest⟩ := List.forall_mem_cons.mp hput
      rw [List.foldlM_cons] at h
      obtain ⟨next, hnext, hmore⟩ := ok_of_bind h
      exact ih hrest hmore (hfirst start next hstart hnext)

/-- What only members of one name touch is as the last of them has it. -/
theorem foldlM_put_last {β : Type} (get : σ → β) (Decoded : Node → β → Prop) {name : String}
    {members : List (String × Node)} {start result : σ}
    (hset : ∀ node a b, put reading slots other a (name, node) = .ok b → Decoded node (get b))
    (hkeep : ∀ member a b, member.1 ≠ name → put reading slots other a member = .ok b →
      get b = get a)
    (h : members.foldlM (put reading slots other) start = .ok result) :
    match members.reverse.lookup name with
    | some node => Decoded node (get result)
    | none => get result = get start := by
  -- By induction from the end, since the last member of the name is the one that counts.
  induction members using List.reverseRecOn generalizing result with
  | nil =>
      obtain rfl := Except.ok.inj h
      rfl
  | append_singleton front member ih =>
      obtain ⟨key, node⟩ := member
      rw [List.foldlM_append] at h
      obtain ⟨before, hbefore, hlast⟩ := ok_of_bind h
      rw [List.foldlM_cons] at hlast
      obtain ⟨after, hafter, hresult⟩ := ok_of_bind hlast
      obtain rfl := Except.ok.inj hresult
      rw [List.reverse_append, List.reverse_singleton, List.singleton_append, List.lookup_cons]
      by_cases hkey : key = name
      · subst hkey
        rw [beq_self_eq_true]
        exact hset node before after hafter
      · rw [beq_eq_false_iff_ne.mpr (Ne.symm hkey), hkeep (key, node) before after hkey hafter]
        exact ih hbefore

/-- Whatever the slot reads, it leaves this part of a record alone. -/
def Slot.Keeps {β : Type} (get : σ → β) (s : Slot σ) : Prop :=
  ∀ reading node a b, s.fill reading node a = .ok b → get b = get a

theorem slot_keeps {β : Type} {get : σ → β} {name : String} {decoder : Decoder α}
    {set : α → σ → σ} (h : ∀ x a, get (set x a) = get a) :
    (slot name decoder set).Keeps get := by
  intro reading node a b hfill
  obtain ⟨x, -, rfl⟩ := ok_of_map hfill
  exact h x a

/-- What is kept by the slots of other names, and by members that have no slot, is kept by every
member of another name. -/
theorem put_keeps {β : Type} {get : σ → β} {name : String}
    (hslots : ∀ s ∈ slots, s.name ≠ name → s.Keeps get)
    (hother : ∀ key ≠ name, ∀ node a b, other reading key node a = .ok b → get b = get a)
    (member : String × Node) (a b : σ) (hne : member.1 ≠ name)
    (h : put reading slots other a member = .ok b) : get b = get a := by
  obtain ⟨s, hs, hname, hfill⟩ | ⟨-, hafter⟩ := put_ok h
  · exact hslots s hs (fun heq => hne (hname ▸ heq)) reading member.2 a b hfill
  · exact hother member.1 hne member.2 a b hafter

theorem ignore_keeps {β : Type} {get : σ → β} {name : String} (key : String) (_ : key ≠ name)
    (node : Node) (a b : σ) (h : ignore reading key node a = .ok b) : get b = get a := by
  obtain ⟨_, _, hb⟩ := ok_of_bind h
  rw [Except.ok.inj hb]

/-- A field that may be left out holds what its last member says, and nothing if that is null. -/
theorem rel_given_of_put {decoder : Decoder α} {get : σ → Option α} {set : Option α → σ → σ}
    {name : String} {Written : Node → α → Prop} {places : List String} {node : Node}
    {start result : σ} (hnames : (names slots).Nodup) (place : Nat) (hplace : place < slots.length)
    (hslot : slots[place] = slot name (optional decoder) set) (hget : ∀ v a, get (set v a) = v)
    (hwritten : ∀ item x, decoder reading item = .ok x → Written item x)
    (hkeep : ∀ (member : String × Node) a b, member.1 ≠ name →
      put reading slots other a member = .ok b → get b = get a)
    (hstart : get start = none)
    (h : (node.members places).foldlM (put reading slots other) start = .ok result) :
    Option.Rel Written (node.given? places name) (get result) := by
  have hfind : (slots.find? fun s => s.name = name) = some (slot name (optional decoder) set) :=
    find?_of_nodup hnames (hslot ▸ List.getElem_mem hplace)
  have hset : ∀ item a b, put reading slots other a (name, item) = .ok b →
      optional decoder reading item = .ok (get b) := by
    intro item a b hput
    unfold put at hput
    rw [hfind] at hput
    obtain ⟨v, hv, rfl⟩ := ok_of_map hput
    rw [hget, hv]
  have hlast := foldlM_put_last get (fun item v => optional decoder reading item = .ok v)
    hset hkeep h
  unfold Node.given? Node.member?
  cases hmember : (node.members places).reverse.lookup name with
  | none =>
      rw [hmember] at hlast
      rw [hlast.trans hstart]
      exact .none
  | some item =>
      rw [hmember] at hlast
      cases item with
      | null mark =>
          rw [← Except.ok.inj hlast]
          exact .none
      | _ =>
          obtain ⟨x, hx, heq⟩ := ok_of_map hlast
          rw [← heq]
          exact .some (hwritten _ x hx)

/-- The things that were read stand in the order of the list. -/
theorem list_ok {decoder : Decoder α} {node : Node} {xs : List α}
    (h : list decoder reading node = .ok xs) :
    List.Forall₂ (fun item x => decoder reading.inside item = .ok x) node.items xs := by
  cases node with
  | array mark items ending =>
      obtain ⟨inner, hinner, hafter⟩ := ok_of_bind h
      obtain ⟨-, rfl⟩ := Reading.enter_eq_ok.mp hinner
      obtain ⟨values, hvalues, hlast⟩ := ok_of_bind hafter
      obtain ⟨_, _, hresult⟩ := ok_of_bind hlast
      obtain rfl := Except.ok.inj hresult
      exact mapM_ok_iff.mp hvalues
  | _ => cases h

/-- A list in a field holds what the items of its member stand for, in their order. -/
theorem forall₂_listed {decoder : Decoder α} {get : σ → List α} {name : String}
    {start result : σ} {node : Node} (hnames : (names slots).Nodup)
    (hset : ∀ node a b, put reading.inside slots other a (name, node) = .ok b →
      list decoder reading.inside node = .ok (get b))
    (hkeep : ∀ member a b, member.1 ≠ name → put reading.inside slots other a member = .ok b →
      get b = get a)
    (hstart : get start = []) (h : record start slots other reading node = .ok result) :
    List.Forall₂ (fun item x => decoder reading.inside.inside item = .ok x)
      (node.listed (names slots) name) (get result) := by
  have hlast := foldlM_put_last get (fun node xs => list decoder reading.inside node = .ok xs)
    hset hkeep (record_ok hnames h)
  unfold Node.listed Node.member?
  cases hmember : (node.members (names slots)).reverse.lookup name with
  | none =>
      rw [hmember] at hlast
      rw [hlast.trans hstart]
      exact .nil
  | some member =>
      rw [hmember] at hlast
      exact list_ok hlast

/-- What follows from how one thing of a list was read holds of all of them. -/
theorem forall_of_decoded {decoder : Decoder α} {items : List Node} {xs : List α} {P : α → Prop}
    (h : List.Forall₂ (fun item x => decoder reading item = .ok x) items xs)
    (hitems : ∀ item ∈ items, item.IsWhole)
    (hdecoded : ∀ item x, item.IsWhole → decoder reading item = .ok x → P x) : ∀ x ∈ xs, P x := by
  induction h with
  | nil => exact List.forall_mem_nil _
  | cons hfirst hrest ih =>
      obtain ⟨hitem, hitems⟩ := List.forall_mem_cons.mp hitems
      exact List.forall_mem_cons.mpr ⟨hdecoded _ _ hitem hfirst, ih hitems⟩

theorem text_ok_iff {s : String} {node : Node} :
    text reading node = .ok s ↔ Shows (.text s) node := by
  cases node with
  | text mark t => exact Iff.rfl
  | _ => exact iff_of_false nofun id

theorem flag_ok_iff {b : Bool} {node : Node} :
    flag reading node = .ok b ↔ Shows (.bool b) node := by
  cases node with
  | bool mark c => exact ⟨Except.ok.inj, congrArg Except.ok⟩
  | _ => exact iff_of_false nofun id

theorem word_ok_iff {n : UInt32} {node : Node} :
    word reading node = .ok n ↔ Shows (.number (.natural n.toNat)) node := by
  constructor
  · intro h
    unfold word at h
    split at h
    · next mark m =>
        split_ifs at h with hsmall
        rw [← Except.ok.inj h, UInt32.toNat_ofNat_of_lt' hsmall]
        rfl
    · cases h
  · intro h
    obtain ⟨mark, rfl⟩ := shows_number h
    have hsmall : n.toNat < UInt32.size := n.toNat_lt_size
    unfold word
    dsimp only
    rw [if_pos hsmall, UInt32.ofNat_toNat]

/-- A value that fits in the room is read back as it is. -/
theorem any_of_shows {room : Nat} (hroom : reading.room = some room) {v : Value}
    (hfits : v.Fits room) {node : Node} (h : Shows v node) : any reading node = .ok v := by
  unfold any
  rw [hroom]
  exact Node.value_of_shows h hfits

theorem optional_of_shows {decoder : Decoder α} {v : Value} {node : Node} (h : Shows v node)
    (hnull : v.isNull = false) :
    optional decoder reading node = (decoder reading node).map some := by
  cases node with
  | null mark =>
      cases v with
      | null => cases hnull
      | _ => exact h.elim
  | _ => rfl

/-- The entries lead from one record to the other, wherever they are shown. -/
def Fills (reading : Reading) (slots : List (Slot σ)) (other : Other σ) :
    List (String × Value) → σ → σ → Prop
  | [], a, b => a = b
  | (name, value) :: rest, a, c =>
      ∃ b, (∀ node, Shows value node → put reading slots other a (name, node) = .ok b) ∧
        Fills reading slots other rest b c

theorem put_of_not_mem {name : String} (h : name ∉ names slots) (record : σ) (node : Node) :
    put reading slots other record (name, node) = other reading name node record := by
  have hfind : (slots.find? fun s => s.name = name) = none := by
    refine List.find?_eq_none.mpr fun s hs hname => h ?_
    exact List.mem_map.mpr ⟨s, hs, of_decide_eq_true hname⟩
  unfold put
  rw [hfind]

theorem Fills.append {first second : List (String × Value)} {a b c : σ}
    (hfirst : Fills reading slots other first a b)
    (hsecond : Fills reading slots other second b c) :
    Fills reading slots other (first ++ second) a c := by
  induction first generalizing a with
  | nil =>
      obtain rfl : a = b := hfirst
      exact hsecond
  | cons entry rest ih =>
      obtain ⟨next, hnext, hrest⟩ := hfirst
      exact ⟨next, hnext, ih hrest⟩

theorem Fills.one {name : String} {value : Value} {a b : σ}
    (h : ∀ node, Shows value node → put reading slots other a (name, node) = .ok b) :
    Fills reading slots other [(name, value)] a b :=
  ⟨b, h, rfl⟩

/-- An entry that is always written fills the slot of its name. -/
theorem Fills.required {β : Type} {name : String} {decoder : Decoder β} {value : Value}
    {set : β → σ → σ} {x : β} {a b : σ}
    (hslot : (slots.find? fun s => s.name = name) = some (slot name decoder set))
    (hdecode : ∀ node, Shows value node → decoder reading node = .ok x) (hset : set x a = b) :
    Fills reading slots other [(name, value)] a b := by
  subst hset
  refine Fills.one fun node hnode => ?_
  unfold put
  rw [hslot]
  exact congrArg (Except.map (set · a)) (hdecode node hnode)

/-- A field that is left out if there is nothing in it. -/
theorem Fills.optional {β : Type} {name : String} {decoder : Decoder β} {encode : β → Value}
    {set : Option β → σ → σ} {v : Option β} {a b : σ}
    (hslot : (slots.find? fun s => s.name = name) = some (slot name (optional decoder) set))
    (hdecode : ∀ x, v = some x → (encode x).isNull = false ∧
      ∀ node, Shows (encode x) node → decoder reading node = .ok x)
    (hnone : set none a = a) (hset : set v a = b) :
    Fills reading slots other (v.map fun x => (name, encode x)).toList a b := by
  subst hset
  cases v with
  | none => exact hnone.symm
  | some x =>
      obtain ⟨hnull, hx⟩ := hdecode x rfl
      refine Fills.required hslot (fun node hnode => ?_) rfl
      rw [optional_of_shows hnode hnull, hx node hnode]
      rfl

theorem Fills.untyped {room : Nat} (hroom : reading.room = some room) {name : String}
    {set : Option Value → σ → σ} {v : Option Value} {a b : σ}
    (hslot : (slots.find? fun s => s.name = name) = some (slot name (Decoder.optional any) set))
    (hkept : ∀ x, v = some x → x.Kept room) (hnone : set none a = a) (hset : set v a = b) :
    Fills reading slots other (v.map fun x => (name, x)).toList a b :=
  Fills.optional hslot
    (fun x hx => ⟨(hkept x hx).isNull, fun _ => any_of_shows hroom (hkept x hx).fits⟩) hnone hset

/-- Entries of different names that fill a record one by one fill it when it is read. -/
theorem fillEntries_of_fills {values : List (String × Value)}
    {entries : List (Except Fault String × Node)} {seen : List String} {start result : σ}
    (hshow : ShowEntries values entries) (hfills : Fills reading slots other values start result)
    (hkeys : (values.map Prod.fst).Nodup) (hseen : ∀ key ∈ values.map Prod.fst, key ∉ seen) :
    fillEntries reading slots other seen start entries = .ok result := by
  induction values generalizing entries seen start with
  | nil =>
      obtain rfl : entries = [] := hshow
      exact congrArg Except.ok hfills
  | cons entry rest ih =>
      obtain ⟨name, value⟩ := entry
      obtain ⟨node, more, rfl, hvalue, hmore⟩ := hshow
      obtain ⟨next, hnext, hfills⟩ := hfills
      obtain ⟨hname, hkeys⟩ := List.nodup_cons.mp hkeys
      obtain ⟨hnew, hseen⟩ := List.forall_mem_cons.mp hseen
      have hput := hnext node hvalue
      have hrest : ∀ key ∈ rest.map Prod.fst, key ∉ name :: seen := by
        intro key hkey
        rw [List.mem_cons]
        rintro (rfl | hold)
        · exact hname hkey
        · exact hseen key hkey hold
      unfold put at hput
      rw [fillEntries]
      cases hfind : slots.find? fun s => s.name = name with
      | none =>
          rw [hfind] at hput
          simp only [hfind, bind, Except.bind] at hput ⊢
          rw [hput]
          exact ih hmore hfills hkeys hseen
      | some s =>
          rw [hfind] at hput
          have hfresh : seen.contains name = false := by simpa using hnew
          simp only [hfind, hfresh, bind, Except.bind] at hput ⊢
          rw [hput]
          exact ih hmore hfills hkeys hrest

theorem object_of_fills {values : List (String × Value)} {start result : σ} {node : Node}
    (hroom : reading.room ≠ some 0) (hkeys : (values.map Prod.fst).Nodup)
    (hfills : Fills reading.inside slots other values start result)
    (hshow : Shows (.object values) node) :
    object start slots other reading node = .ok result := by
  obtain ⟨mark, nodes, rfl, hnodes⟩ := shows_object hshow
  have hfilled := fillEntries_of_fills hnodes hfills hkeys (fun _ _ => List.not_mem_nil)
  unfold object
  dsimp only
  rw [Reading.enter_eq_ok.mpr ⟨hroom, rfl⟩]
  change (fillEntries reading.inside slots other [] start nodes >>= _) = _
  rw [hfilled]
  rfl

theorem record_of_fills {values : List (String × Value)} {start result : σ} {node : Node}
    (hroom : reading.room ≠ some 0) (hkeys : (values.map Prod.fst).Nodup)
    (hfills : Fills reading.inside slots other values start result)
    (hshow : Shows (.object values) node) :
    record start slots other reading node = .ok result := by
  have hobject := object_of_fills hroom hkeys hfills hshow
  obtain ⟨mark, nodes, rfl, -⟩ := shows_object hshow
  exact hobject

theorem list_of_shows {decoder : Decoder α} {encode : α → Value} {xs : List α} {node : Node}
    (hroom : reading.room ≠ some 0)
    (hdecode : ∀ x ∈ xs, ∀ item, Shows (encode x) item → decoder reading.inside item = .ok x)
    (hshow : Shows (.array (xs.map encode)) node) :
    list decoder reading node = .ok xs := by
  obtain ⟨mark, nodes, rfl, hnodes⟩ := shows_array hshow
  have hitems : List.Forall₂ (fun item x => decoder reading.inside item = .ok x) nodes xs := by
    clear hshow
    induction xs generalizing nodes with
    | nil =>
        obtain rfl : nodes = [] := hnodes
        exact .nil
    | cons x rest ih =>
        obtain ⟨item, more, rfl, hitem, hmore⟩ := hnodes
        obtain ⟨hx, hrest⟩ := List.forall_mem_cons.mp hdecode
        exact .cons (hx item hitem) (ih hrest more hmore)
  unfold list
  dsimp only
  rw [Reading.enter_eq_ok.mpr ⟨hroom, rfl⟩]
  change (nodes.mapM (decoder reading.inside) >>= _) = _
  rw [mapM_ok_iff.mpr hitems]
  rfl

end Putting

end Decoder

end GioForge.Document
