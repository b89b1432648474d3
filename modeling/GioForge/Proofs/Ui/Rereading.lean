import GioForge.Proofs.Document.Records
import GioForge.Ui.Decode
import GioForge.Ui.Encode

/-!
User interfaces read from the data they are written as. A window and a size constraint can
always be read back. An element can if what it keeps untyped fits: that is so for every
element that was read, and its further fields are then the entries of its tree that are no
field of every element.
-/

namespace GioForge.Ui

open Document Decoder

theorem Size.decode_encode (size : Size) {reading : Reading} {room : Nat}
    (hroom : reading.room = some (room + 1)) {node : Node} (h : Shows size.encode node) :
    Size.decoder reading node = .ok size := by
  have hword : ∀ (n : UInt32) (mark : Nat),
      word reading (.number mark (.ok (.natural n.toNat))) = .ok n :=
    fun n mark => word_ok_iff.mpr rfl
  -- The first step of the decoder only has to succeed. What it reads of a named size is not
  -- `size.encode`, whose keys are not in order, so `any_of_shows` is of no use here.
  cases size with
  | square side =>
      obtain ⟨mark, rfl⟩ := shows_number h
      change (word reading (.number mark (.ok (.natural side.toNat)))).map Size.square = _
      rw [hword]
      rfl
  | pair width height =>
      obtain ⟨mark, nodes, rfl, first, rest, rfl, hfirst, second, more, rfl, hsecond, rfl⟩ :=
        shows_array h
      obtain ⟨m, rfl⟩ := shows_number hfirst
      obtain ⟨k, rfl⟩ := shows_number hsecond
      unfold Size.decoder any
      rw [hroom]
      change (word reading (.number m (.ok (.natural width.toNat))) >>= fun w =>
        word reading (.number k (.ok (.natural height.toNat))) >>= fun t =>
          pure (Size.pair w t)) = _
      rw [hword, hword]
      rfl
  | named width height =>
      obtain ⟨mark, nodes, rfl, first, rest, rfl, hfirst, second, more, rfl, hsecond, rfl⟩ :=
        shows_object h
      obtain ⟨m, rfl⟩ := shows_number hfirst
      obtain ⟨k, rfl⟩ := shows_number hsecond
      unfold Size.decoder any
      rw [hroom]
      change namedSize reading (none, none)
        [(.ok "width", .number m (.ok (.natural width.toNat))),
          (.ok "height", .number k (.ok (.natural height.toNat)))] = _
      simp [namedSize, hword, bind, Except.bind]

theorem Size.encode_isNull (size : Size) : size.encode.isNull = false := by
  cases size <;> rfl

theorem optionalEntry_keys {α : Type} (name : String) (encode : α → Value) (v : Option α) :
    ((optionalEntry name encode v).map Prod.fst).Sublist [name] := by
  cases v with
  | none => exact List.nil_sublist _
  | some x => exact List.Sublist.refl _

theorem WindowSpec.decode_encode (w : WindowSpec) {reading : Reading} {room : Nat}
    (hroom : reading.room = some (room + 2)) {node : Node} (h : Shows w.encode node) :
    WindowSpec.decoder reading node = .ok w := by
  have hinside := Reading.room_inside hroom
  obtain ⟨title, width, height, minSize, maxSize, fullscreen, icon⟩ := w
  have htitle : Fills reading.inside slots ignore (optionalEntry "title" .text title) {}
      { title } :=
    Fills.optional rfl (fun _ _ => ⟨rfl, fun _ => text_ok_iff.mpr⟩) rfl rfl
  have hwidth : Fills reading.inside slots ignore (optionalEntry "width" wordValue width)
      { title } { title, width } :=
    Fills.optional rfl (fun _ _ => ⟨rfl, fun _ => word_ok_iff.mpr⟩) rfl rfl
  have hheight : Fills reading.inside slots ignore (optionalEntry "height" wordValue height)
      { title, width } { title, width, height } :=
    Fills.optional rfl (fun _ _ => ⟨rfl, fun _ => word_ok_iff.mpr⟩) rfl rfl
  have hminSize : Fills reading.inside slots ignore (optionalEntry "min_size" Size.encode minSize)
      { title, width, height } { title, width, height, minSize } :=
    Fills.optional rfl
      (fun size _ => ⟨size.encode_isNull, fun _ => size.decode_encode hinside⟩) rfl rfl
  have hmaxSize : Fills reading.inside slots ignore (optionalEntry "max_size" Size.encode maxSize)
      { title, width, height, minSize } { title, width, height, minSize, maxSize } :=
    Fills.optional rfl
      (fun size _ => ⟨size.encode_isNull, fun _ => size.decode_encode hinside⟩) rfl rfl
  have hfullscreen : Fills reading.inside slots ignore
      (optionalEntry "fullscreen" .bool fullscreen)
      { title, width, height, minSize, maxSize }
      { title, width, height, minSize, maxSize, fullscreen } :=
    Fills.optional rfl (fun _ _ => ⟨rfl, fun _ => flag_ok_iff.mpr⟩) rfl rfl
  have hicon : Fills reading.inside slots ignore (optionalEntry "icon" .text icon)
      { title, width, height, minSize, maxSize, fullscreen }
      { title, width, height, minSize, maxSize, fullscreen, icon } :=
    Fills.optional rfl (fun _ _ => ⟨rfl, fun _ => text_ok_iff.mpr⟩) rfl rfl
  refine record_of_fills (by rw [hroom]; nofun) ?_ ?_ h
  · have hnames : (names WindowSpec.slots).Nodup := by decide
    refine List.Nodup.sublist ?_ hnames
    simp only [List.map_append]
    exact ((((((optionalEntry_keys "title" _ _).append (optionalEntry_keys "width" _ _)).append
      (optionalEntry_keys "height" _ _)).append (optionalEntry_keys "min_size" _ _)).append
      (optionalEntry_keys "max_size" _ _)).append (optionalEntry_keys "fullscreen" _ _)).append
      (optionalEntry_keys "icon" _ _)
  · exact (((((htitle.append hwidth).append hheight).append hminSize).append hmaxSize).append
      hfullscreen).append hicon

theorem wordValue_isWhole (n : UInt32) : (wordValue n).IsWhole := by
  have hlimit : UInt32.size ≤ Number.naturalLimit := by decide
  exact Nat.le_trans (Nat.le_of_lt n.toNat_lt_size) hlimit

theorem Size.encode_isWhole (size : Size) : size.encode.IsWhole := by
  cases size with
  | square side => exact wordValue_isWhole side
  | pair width height => exact ⟨wordValue_isWhole width, wordValue_isWhole height, trivial⟩
  | named width height => exact ⟨wordValue_isWhole width, wordValue_isWhole height, trivial⟩

theorem optionalEntry_isWhole {α : Type} {name : String} {encode : α → Value} {v : Option α}
    (h : ∀ x, v = some x → (encode x).IsWhole) :
    ∀ entry ∈ optionalEntry name encode v, entry.2.IsWhole := by
  cases v with
  | none => exact List.forall_mem_nil _
  | some x => exact List.forall_mem_singleton.mpr (h x rfl)

theorem WindowSpec.encode_isWhole (w : WindowSpec) : w.encode.IsWhole := by
  refine Value.entriesWhole_iff.mpr ?_
  simp only [List.forall_mem_append]
  exact ⟨⟨⟨⟨⟨⟨optionalEntry_isWhole fun _ _ => trivial,
    optionalEntry_isWhole fun n _ => wordValue_isWhole n⟩,
    optionalEntry_isWhole fun n _ => wordValue_isWhole n⟩,
    optionalEntry_isWhole fun size _ => size.encode_isWhole⟩,
    optionalEntry_isWhole fun size _ => size.encode_isWhole⟩,
    optionalEntry_isWhole fun _ _ => trivial⟩, optionalEntry_isWhole fun _ _ => trivial⟩

def WindowSpec.places : List String :=
  ["title", "width", "height", "min_size", "max_size", "fullscreen", "icon"]

/-- The form in which the size is written. Of a named size other entries may stand around its two
numbers. -/
inductive Size.WrittenIn (node : Node) : Size → Prop where
  | square {side : UInt32} (h : Shows (wordValue side) node) : WrittenIn node (.square side)
  | pair {width height : UInt32} {mark : Nat} {first second : Node} {ending : Option Break}
      (hnode : node = .array mark [first, second] ending) (hwidth : Shows (wordValue width) first)
      (hheight : Shows (wordValue height) second) : WrittenIn node (.pair width height)
  | named {width height : UInt32} {first second : Node}
      (hfirst : node.member? [] "width" = some first) (hwidth : Shows (wordValue width) first)
      (hsecond : node.member? [] "height" = some second)
      (hheight : Shows (wordValue height) second) : WrittenIn node (.named width height)

/-- The number that was found is what is written, or was found before if nothing is. -/
def Size.Found (written : Option Node) (before : Option UInt32) (n : UInt32) : Prop :=
  match written with
  | some item => Shows (wordValue n) item
  | none => before = some n

/-- An entry of the name that is looked for is what is found, unless a later one replaces it. -/
theorem Size.Found.cons {reading : Reading} {entries : List (String × Node)} {name : String}
    {item : Node} {n found : UInt32} {before : Option UInt32}
    (h : Found (entries.reverse.lookup name) (some found) n)
    (hitem : word reading item = .ok found) :
    Found (((name, item) :: entries).reverse.lookup name) before n := by
  rw [List.reverse_cons, List.lookup_append]
  cases hlookup : entries.reverse.lookup name with
  | some last =>
      rw [hlookup] at h
      exact h
  | none =>
      rw [hlookup] at h
      obtain rfl : found = n := Option.some.inj h
      simpa [Found, wordValue] using word_ok_iff.mp hitem

theorem Size.Found.cons_of_ne {entries : List (String × Node)} {name other : String} {item : Node}
    {n : UInt32} {before : Option UInt32} (h : Found (entries.reverse.lookup name) before n)
    (hne : other ≠ name) : Found (((other, item) :: entries).reverse.lookup name) before n := by
  rw [List.reverse_cons, List.lookup_append]
  simpa [List.lookup_cons, beq_eq_false_iff_ne.mpr hne.symm] using h

/-- A size with named lengths has the last of each name. -/
theorem namedSize_ok {reading : Reading} {entries : List (Except Fault String × Node)}
    {before : Option UInt32 × Option UInt32} {size : Size}
    (h : namedSize reading before entries = .ok size) :
    ∃ width height, size = .named width height ∧
      Size.Found ((namedEntries entries).reverse.lookup "width") before.1 width ∧
      Size.Found ((namedEntries entries).reverse.lookup "height") before.2 height := by
  induction entries generalizing before with
  | nil =>
      unfold namedSize at h
      split at h
      · next width height => exact ⟨width, height, (Except.ok.inj h).symm, rfl, rfl⟩
      · cases h
  | cons entry rest ih =>
      obtain ⟨key, item⟩ := entry
      obtain ⟨name, rfl, hafter⟩ := ok_of_bind h
      rw [namedEntries_cons]
      dsimp only at hafter
      split_ifs at hafter with hwidthName hseen hheightName hseen
      · cases hafter
      · obtain ⟨found, hfound, hrest⟩ := ok_of_bind hafter
        obtain ⟨width, height, hsize, hwidth, hheight⟩ := ih hrest
        subst hwidthName
        exact ⟨width, height, hsize, hwidth.cons hfound, hheight.cons_of_ne (by decide)⟩
      · cases hafter
      · obtain ⟨found, hfound, hrest⟩ := ok_of_bind hafter
        obtain ⟨width, height, hsize, hwidth, hheight⟩ := ih hrest
        subst hheightName
        exact ⟨width, height, hsize, hwidth.cons_of_ne (by decide), hheight.cons hfound⟩
      · obtain ⟨width, height, hsize, hwidth, hheight⟩ := ih hafter
        exact ⟨width, height, hsize, hwidth.cons_of_ne hwidthName,
          hheight.cons_of_ne hheightName⟩

/-- A size has the form and the lengths that were written. -/
theorem Size.writtenIn_of_decoded {size : Size} {reading : Reading} {node : Node}
    (h : Size.decoder reading node = .ok size) : size.WrittenIn node := by
  obtain ⟨_, -, h⟩ := ok_of_bind h
  split at h
  · next mark n =>
      obtain ⟨side, hside, h⟩ := ok_of_bind h
      obtain rfl := Except.ok.inj h
      exact .square (word_ok_iff.mp hside)
  · next mark first second ending _ =>
      obtain ⟨width, hwidth, h⟩ := ok_of_bind h
      obtain ⟨height, hheight, h⟩ := ok_of_bind h
      obtain rfl := Except.ok.inj h
      exact .pair rfl (word_ok_iff.mp hwidth) (word_ok_iff.mp hheight)
  · next mark entries ending _ =>
      obtain ⟨width, height, rfl, hwidth, hheight⟩ := namedSize_ok h
      have hmember : ∀ {name n}, Found ((namedEntries entries).reverse.lookup name) none n →
          ∃ item, (Node.object mark entries ending).member? [] name = some item ∧
            Shows (wordValue n) item := by
        intro name n hfound
        unfold Node.member? Node.members
        cases hlookup : (namedEntries entries).reverse.lookup name with
        | none =>
            rw [hlookup] at hfound
            cases hfound
        | some item =>
            rw [hlookup] at hfound
            exact ⟨item, rfl, hfound⟩
      obtain ⟨first, hfirst, hwidth⟩ := hmember hwidth
      obtain ⟨second, hsecond, hheight⟩ := hmember hheight
      exact .named hfirst hwidth hsecond hheight
  · cases h

/-- The entries of a window are what its tree says, each size in the form it is written in. An
entry that is missing or null is absent. -/
structure WindowSpec.WrittenIn (node : Node) (w : WindowSpec) : Prop where
  title : Option.Rel (fun item s => Shows (.text s) item) (node.given? places "title") w.title
  width : Option.Rel (fun item n => Shows (wordValue n) item) (node.given? places "width") w.width
  height : Option.Rel (fun item n => Shows (wordValue n) item) (node.given? places "height")
    w.height
  minSize : Option.Rel Size.WrittenIn (node.given? places "min_size") w.minSize
  maxSize : Option.Rel Size.WrittenIn (node.given? places "max_size") w.maxSize
  fullscreen : Option.Rel (fun item b => Shows (.bool b) item) (node.given? places "fullscreen")
    w.fullscreen
  icon : Option.Rel (fun item s => Shows (.text s) item) (node.given? places "icon") w.icon

/-- Every entry of a window is the one that was written. -/
theorem WindowSpec.writtenIn_of_decoded {w : WindowSpec} {reading : Reading} {node : Node}
    (h : WindowSpec.decoder reading node = .ok w) : w.WrittenIn node := by
  have hnames : (names WindowSpec.slots).Nodup := by decide
  have hput := record_ok hnames h
  -- What is left of each entry is that the fields of the six others keep it.
  refine ⟨rel_given_of_put hnames 0 (by decide) rfl (fun _ _ => rfl) (fun _ _ => text_ok_iff.mp)
      (put_keeps ?_ ignore_keeps) rfl hput,
    rel_given_of_put hnames 1 (by decide) rfl (fun _ _ => rfl) (fun _ _ => word_ok_iff.mp)
      (put_keeps ?_ ignore_keeps) rfl hput,
    rel_given_of_put hnames 2 (by decide) rfl (fun _ _ => rfl) (fun _ _ => word_ok_iff.mp)
      (put_keeps ?_ ignore_keeps) rfl hput,
    rel_given_of_put hnames 3 (by decide) rfl (fun _ _ => rfl)
      (fun _ _ => Size.writtenIn_of_decoded) (put_keeps ?_ ignore_keeps) rfl hput,
    rel_given_of_put hnames 4 (by decide) rfl (fun _ _ => rfl)
      (fun _ _ => Size.writtenIn_of_decoded) (put_keeps ?_ ignore_keeps) rfl hput,
    rel_given_of_put hnames 5 (by decide) rfl (fun _ _ => rfl) (fun _ _ => flag_ok_iff.mp)
      (put_keeps ?_ ignore_keeps) rfl hput,
    rel_given_of_put hnames 6 (by decide) rfl (fun _ _ => rfl) (fun _ _ => text_ok_iff.mp)
      (put_keeps ?_ ignore_keeps) rfl hput⟩
  all_goals
    intro s hs hne
    simp only [slots, List.mem_cons, List.not_mem_nil, or_false] at hs
    rcases hs with rfl | rfl | rfl | rfl | rfl | rfl | rfl
    all_goals first | exact absurd rfl hne | exact slot_keeps fun _ _ => rfl

/-- What is true of an element that was read from a text with whole numbers. -/
structure Element.Readable (room : Nat) (e : Element) : Prop where
  value : ∀ v, e.rawValue = some v → v.Kept room
  action : ∀ v, e.rawAction = some v → v.Kept room
  sorted : e.fields.Sorted
  unreserved : ∀ field ∈ e.fields, field.1 ∉ names slots
  fields : ∀ field ∈ e.fields, field.2.IsWhole ∧ field.2.Fits room

/-- What the decoder does with an entry that is no field of every element. -/
def Element.further : Other Element := fun reading name node e => do
  return e.withField name (← any reading node)

/-- The further fields are in key order, so each goes to the end. -/
theorem Element.fills_fields {reading : Reading} {room : Nat} (hroom : reading.room = some room)
    {e : Element} {left : Fields} (hsorted : (e.fields ++ left).Sorted)
    (hunreserved : ∀ field ∈ left, field.1 ∉ names slots)
    (hfits : ∀ field ∈ left, field.2.Fits room) :
    Fills reading slots further left e { e with fields := e.fields ++ left } := by
  induction left generalizing e with
  | nil =>
      rw [List.append_nil]
      rfl
  | cons field rest ih =>
      obtain ⟨name, v⟩ := field
      obtain ⟨hname, hunreserved⟩ := List.forall_mem_cons.mp hunreserved
      obtain ⟨hv, hfits⟩ := List.forall_mem_cons.mp hfits
      have hlast : e.fields.insert name v = e.fields ++ [(name, v)] := by
        apply Fields.insert_of_forall_lt
        intro field hfield
        exact (List.pairwise_append.mp hsorted).2.2 field hfield (name, v) List.mem_cons_self
      rw [List.append_cons] at hsorted ⊢
      refine ⟨{ e with fields := e.fields ++ [(name, v)] }, ?_, ih hsorted hunreserved hfits⟩
      intro node hnode
      rw [put_of_not_mem hname, ← hlast]
      unfold further
      rw [any_of_shows hroom hv hnode]
      rfl

theorem Element.Readable.decode_encode {e : Element} {room : Nat} (he : e.Readable room)
    {reading : Reading} (hroom : reading.room = some (room + 1)) {node : Node}
    (h : Shows e.encode node) : Element.decoder reading node = .ok e := by
  have hinside := Reading.room_inside hroom
  obtain ⟨tag, legacyTag, rawValue, rawAction, fields⟩ := e
  have htag : Fills reading.inside slots further (optionalEntry "kind" .text tag) {} { tag } :=
    Fills.optional rfl (fun _ _ => ⟨rfl, fun _ => text_ok_iff.mpr⟩) rfl rfl
  have hlegacyTag : Fills reading.inside slots further (optionalEntry "type" .text legacyTag)
      { tag } { tag, legacyTag } :=
    Fills.optional rfl (fun _ _ => ⟨rfl, fun _ => text_ok_iff.mpr⟩) rfl rfl
  have hvalue : Fills reading.inside slots further (optionalEntry "value" id rawValue)
      { tag, legacyTag } { tag, legacyTag, rawValue } :=
    Fills.untyped hinside rfl he.value rfl rfl
  have haction : Fills reading.inside slots further (optionalEntry "action_id" id rawAction)
      { tag, legacyTag, rawValue } { tag, legacyTag, rawValue, rawAction } :=
    Fills.untyped hinside rfl he.action rfl rfl
  have hfields : Fills reading.inside slots further fields
      { tag, legacyTag, rawValue, rawAction }
      { tag, legacyTag, rawValue, rawAction, fields } :=
    fills_fields hinside he.sorted he.unreserved fun field hfield => (he.fields field hfield).2
  refine object_of_fills (by rw [hroom]; nofun) ?_
    ((((htag.append hlegacyTag).append hvalue).append haction).append hfields) h
  have hnames : (names Element.slots).Nodup := by decide
  have hreserved := (((optionalEntry_keys "kind" .text tag).append
    (optionalEntry_keys "type" .text legacyTag)).append
    (optionalEntry_keys "value" id rawValue)).append (optionalEntry_keys "action_id" id rawAction)
  rw [List.map_append, List.map_append, List.map_append, List.map_append]
  refine List.nodup_append.mpr ⟨hnames.sublist hreserved, ?_, ?_⟩
  · refine List.pairwise_map.mpr (he.sorted.imp ?_)
    rintro a b hlt heq
    exact String.lt_irrefl _ (heq ▸ hlt)
  · rintro key hkey name hname rfl
    obtain ⟨field, hfield, rfl⟩ := List.mem_map.mp hname
    exact he.unreserved field hfield (hreserved.subset hkey)

theorem Element.Readable.encode_isWhole {e : Element} {room : Nat} (he : e.Readable room) :
    e.encode.IsWhole := by
  refine Value.entriesWhole_iff.mpr ?_
  simp only [List.forall_mem_append]
  exact ⟨⟨⟨⟨optionalEntry_isWhole fun _ _ => trivial, optionalEntry_isWhole fun _ _ => trivial⟩,
    optionalEntry_isWhole fun v hv => (he.value v hv).isWhole⟩,
    optionalEntry_isWhole fun v hv => (he.action v hv).isWhole⟩,
    fun field hfield => (he.fields field hfield).1⟩

/-- Whatever was read as an element can be written and read again. -/
theorem Element.readable_of_decoded {e : Element} {room : Nat} {reading : Reading}
    (hroom : reading.room = some (room + 1)) {node : Node} (hwhole : node.IsWhole)
    (h : Element.decoder reading node = .ok e) : e.Readable room := by
  have hinside := Reading.room_inside hroom
  refine foldlM_put_invariant ?_ (object_ok h [])
    ⟨nofun, nofun, List.Pairwise.nil, nofun, nofun⟩
  intro member hmember a b ha hput
  have hmember := hwhole.members hmember
  obtain ⟨s, hs, -, hfill⟩ | ⟨hname, hfurther⟩ := put_ok hput
  · simp only [slots, List.mem_cons, List.not_mem_nil, or_false] at hs
    rcases hs with rfl | rfl | rfl | rfl
    · obtain ⟨tag, -, rfl⟩ := ok_of_map hfill
      exact { ha with }
    · obtain ⟨tag, -, rfl⟩ := ok_of_map hfill
      exact { ha with }
    · obtain ⟨value, hvalue, rfl⟩ := ok_of_map hfill
      exact { ha with value := optional_any_kept hinside hmember hvalue }
    · obtain ⟨action, haction, rfl⟩ := ok_of_map hfill
      exact { ha with action := optional_any_kept hinside hmember haction }
  · obtain ⟨v, hv, hb⟩ := ok_of_bind hfurther
    obtain rfl := Except.ok.inj hb
    obtain ⟨hfits, hnumbers, -⟩ := any_ok hinside hv
    refine { ha with
      sorted := ha.sorted.insert member.1 v
      unreserved := ?_
      fields := ?_ }
    · intro field hfield
      obtain rfl | hfield := Fields.mem_insert hfield
      · exact hname
      · exact ha.unreserved field hfield
    · intro field hfield
      obtain rfl | hfield := Fields.mem_insert hfield
      · exact ⟨hnumbers hmember, hfits⟩
      · exact ha.fields field hfield

/-- A further entry is kept as it was written, and the last of several is. -/
theorem Element.get?_fields_of_decoded {e : Element} {room : Nat} {reading : Reading}
    (hroom : reading.room = some (room + 1)) {node : Node}
    (h : Element.decoder reading node = .ok e) {name : String} (hname : name ∉ names slots)
    (places : List String) :
    (e.fields.get? name).map Except.ok = (node.member? places name).map (Node.value none) := by
  have hinside := Reading.room_inside hroom
  have hset : ∀ node a b, put reading.inside slots further a (name, node) = .ok b →
      (b.fields.get? name).map Except.ok = some (node.value none) := by
    intro node a b hput
    rw [put_of_not_mem hname] at hput
    obtain ⟨v, hv, hb⟩ := ok_of_bind hput
    obtain rfl := Except.ok.inj hb
    rw [(any_ok hinside hv).2.2, Element.withField, Fields.get?_insert, if_pos rfl]
    rfl
  have hslots : ∀ s ∈ slots, s.name ≠ name → s.Keeps fun e : Element => e.fields.get? name := by
    intro s hs _
    simp only [slots, List.mem_cons, List.not_mem_nil, or_false] at hs
    rcases hs with rfl | rfl | rfl | rfl
    all_goals exact slot_keeps fun _ _ => rfl
  have hfurther : ∀ key ≠ name, ∀ (node : Node) (a b : Element),
      further reading.inside key node a = .ok b → b.fields.get? name = a.fields.get? name := by
    intro key hne node a b hput
    obtain ⟨v, -, hb⟩ := ok_of_bind hput
    obtain rfl := Except.ok.inj hb
    rw [Element.withField, Fields.get?_insert, if_neg (Ne.symm hne)]
  have hlast := foldlM_put_last (fun a : Element => a.fields.get? name)
    (fun node found => found.map Except.ok = some (node.value none)) hset
    (put_keeps hslots hfurther) (object_ok h places)
  unfold Node.member?
  cases hmember : (node.members places).reverse.lookup name with
  | none =>
      rw [hmember] at hlast
      rw [show e.fields.get? name = none from hlast]
      rfl
  | some member =>
      rw [hmember] at hlast
      exact hlast

/-- The element is what its tree says: its own fields, absent where they are missing or null, and
every other entry, of one name the last, null or not. -/
structure Element.WrittenIn (node : Node) (e : Element) : Prop where
  tag : Option.Rel (fun item s => Shows (.text s) item) (node.given? [] "kind") e.tag
  legacyTag : Option.Rel (fun item s => Shows (.text s) item) (node.given? [] "type") e.legacyTag
  value : Option.Rel (fun item v => item.value none = .ok v) (node.given? [] "value") e.rawValue
  action : Option.Rel (fun item v => item.value none = .ok v) (node.given? [] "action_id")
    e.rawAction
  further : ∀ name ∉ ["kind", "type", "value", "action_id"],
    (e.fields.get? name).map Except.ok = (node.member? [] name).map (Node.value none)

/-- A further field changes nothing else about an element. -/
theorem Element.further_keeps {β : Type} {get : Element → β} {reading : Reading} {name : String}
    (hget : ∀ e fields, get { e with fields } = get e) (key : String) (_ : key ≠ name)
    (node : Node) (a b : Element) (h : further reading key node a = .ok b) : get b = get a := by
  obtain ⟨v, -, hb⟩ := ok_of_bind h
  rw [← Except.ok.inj hb]
  exact hget a _

/-- Every entry of an element is the one that was written. -/
theorem Element.writtenIn_of_decoded {e : Element} {room : Nat} {reading : Reading}
    (hroom : reading.room = some (room + 1)) {node : Node}
    (h : Element.decoder reading node = .ok e) : e.WrittenIn node := by
  have hnames : (names Element.slots).Nodup := by decide
  have hput := object_ok h []
  have huntyped : ∀ item v, any reading.inside item = .ok v → item.value none = .ok v :=
    fun _ _ hv => (any_ok (Reading.room_inside hroom) hv).2.2
  refine ⟨rel_given_of_put hnames 0 (by decide) rfl (fun _ _ => rfl) (fun _ _ => text_ok_iff.mp)
      (put_keeps ?_ (further_keeps fun _ _ => rfl)) rfl hput,
    rel_given_of_put hnames 1 (by decide) rfl (fun _ _ => rfl) (fun _ _ => text_ok_iff.mp)
      (put_keeps ?_ (further_keeps fun _ _ => rfl)) rfl hput,
    rel_given_of_put hnames 2 (by decide) rfl (fun _ _ => rfl) huntyped
      (put_keeps ?_ (further_keeps fun _ _ => rfl)) rfl hput,
    rel_given_of_put hnames 3 (by decide) rfl (fun _ _ => rfl) huntyped
      (put_keeps ?_ (further_keeps fun _ _ => rfl)) rfl hput,
    fun name hname => get?_fields_of_decoded hroom h hname []⟩
  all_goals
    intro s hs hne
    simp only [slots, List.mem_cons, List.not_mem_nil, or_false] at hs
    rcases hs with rfl | rfl | rfl | rfl
    all_goals first | exact absurd rfl hne | exact slot_keeps fun _ _ => rfl

theorem Graph.encode_isWhole {g : Graph} {room : Nat} (hg : ∀ e ∈ g.elements, e.Readable room) :
    g.encode.IsWhole := by
  have helements : (Value.array (g.elements.map Element.encode)).IsWhole := by
    refine Value.allWhole_iff.mpr ?_
    simp only [List.forall_mem_map]
    exact fun e he => (hg e he).encode_isWhole
  refine Value.entriesWhole_iff.mpr ?_
  simp only [List.forall_mem_cons, List.forall_mem_append]
  exact ⟨trivial, optionalEntry_isWhole fun w _ => w.encode_isWhole, helements,
    List.forall_mem_nil _⟩

theorem Graph.decode_encode {g : Graph} {room : Nat} (hg : ∀ e ∈ g.elements, e.Readable room)
    {reading : Reading} (hroom : reading.room = some (room + 3)) {node : Node}
    (h : Shows g.encode node) : Graph.decoder reading node = .ok g := by
  have hinside := Reading.room_inside hroom
  obtain ⟨page, window, elements⟩ := g
  have hpage : Fills reading.inside slots ignore [("page", .text page)] {} { page } :=
    Fills.required rfl (fun _ => text_ok_iff.mpr) rfl
  have hwindow : Fills reading.inside slots ignore
      (optionalEntry "window" WindowSpec.encode window) { page } { page, window } :=
    Fills.optional rfl (fun w _ => ⟨rfl, fun _ => w.decode_encode hinside⟩) rfl rfl
  have helements : Fills reading.inside slots ignore
      [("elements", .array (elements.map Element.encode))] { page, window }
      { page, window, elements } := by
    refine Fills.required rfl (fun _ => list_of_shows (by rw [hinside]; nofun) ?_) rfl
    exact fun e he _ => (hg e he).decode_encode (Reading.room_inside hinside)
  refine record_of_fills (by rw [hroom]; nofun) ?_ (hpage.append (hwindow.append helements)) h
  have hnames : (names Graph.slots).Nodup := by decide
  refine hnames.sublist ?_
  rw [List.map_append, List.map_append]
  exact (List.Sublist.refl ["page"]).append
    ((optionalEntry_keys "window" _ _).append (List.Sublist.refl ["elements"]))

theorem Graph.elements_of_decoded {g : Graph} {reading : Reading} {node : Node}
    (h : Graph.decoder reading node = .ok g) :
    List.Forall₂ (fun item e => Element.decoder reading.inside.inside item = .ok e)
      (node.listed (names slots) "elements") g.elements := by
  refine forall₂_listed (by decide) ?_ (put_keeps ?_ ignore_keeps) rfl h
  · intro node a b hput
    obtain ⟨elements, helements, rfl⟩ := ok_of_map hput
    exact helements
  · intro s hs hne
    simp only [slots, List.mem_cons, List.not_mem_nil, or_false] at hs
    rcases hs with rfl | rfl | rfl
    · exact slot_keeps fun _ _ => rfl
    · exact slot_keeps fun _ _ => rfl
    · exact absurd rfl hne

/-- There is a window exactly if one is written, and then it is that one. -/
theorem Graph.window_of_decoded {g : Graph} {reading : Reading} {node : Node}
    (h : Graph.decoder reading node = .ok g) :
    Option.Rel WindowSpec.WrittenIn (node.given? (names slots) "window") g.window := by
  have hnames : (names Graph.slots).Nodup := by decide
  refine rel_given_of_put hnames 1 (by decide) rfl (fun _ _ => rfl)
    (fun _ _ => WindowSpec.writtenIn_of_decoded) (put_keeps ?_ ignore_keeps) rfl
    (record_ok hnames h)
  intro s hs hne
  simp only [slots, List.mem_cons, List.not_mem_nil, or_false] at hs
  rcases hs with rfl | rfl | rfl
  · exact slot_keeps fun _ _ => rfl
  · exact absurd rfl hne
  · exact slot_keeps fun _ _ => rfl

/-- The page has the name that is written, or the usual one. -/
theorem Graph.page_of_decoded {g : Graph} {reading : Reading} {node : Node}
    (h : Graph.decoder reading node = .ok g) :
    (node.member? (names slots) "page").elim (g.page = defaultPage) (Shows (.text g.page)) := by
  have hnames : (names Graph.slots).Nodup := by decide
  have hset : ∀ item a b, put reading.inside slots ignore a ("page", item) = .ok b →
      Shows (.text b.page) item := by
    intro item a b hput
    obtain ⟨page, hpage, rfl⟩ := ok_of_map hput
    exact text_ok_iff.mp hpage
  have hkeep : ∀ s ∈ Graph.slots, s.name ≠ "page" → s.Keeps Graph.page := by
    intro s hs hne
    simp only [slots, List.mem_cons, List.not_mem_nil, or_false] at hs
    rcases hs with rfl | rfl | rfl
    · exact absurd rfl hne
    · exact slot_keeps fun _ _ => rfl
    · exact slot_keeps fun _ _ => rfl
  have hlast := foldlM_put_last Graph.page (fun item page => Shows (.text page) item) hset
    (put_keeps hkeep ignore_keeps) (record_ok hnames h)
  unfold Node.member?
  cases hmember : (node.members (names slots)).reverse.lookup "page" with
  | none =>
      rw [hmember] at hlast
      exact hlast
  | some item =>
      rw [hmember] at hlast
      exact hlast

theorem Graph.readable_of_decoded {g : Graph} {room : Nat} {reading : Reading}
    (hroom : reading.room = some (room + 3)) {node : Node} (hwhole : node.IsWhole)
    (h : Graph.decoder reading node = .ok g) : ∀ e ∈ g.elements, e.Readable room := by
  refine forall_of_decoded (Graph.elements_of_decoded h) (fun item => hwhole.listed) ?_
  intro item e hitem he
  exact Element.readable_of_decoded (Reading.room_inside (Reading.room_inside hroom)) hitem he

end GioForge.Ui
