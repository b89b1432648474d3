import GioForge.Document.Format
import GioForge.Proofs.Ui.Rereading
import GioForge.Relation.Decode
import GioForge.Relation.Encode

/-!
Documents survive being written. A graph that was read from a JSON text is written as data
and the data as a text; reading that text gives the same graph. What was read holds
everything of the first text that counts: its elements or scripts in their order, and the
further fields of each element with their values.
-/

namespace GioForge

namespace Relation

open Document Decoder

/-- What is true of a script that was read from a text with whole numbers. -/
structure Script.Readable (room : Nat) (s : Script) : Prop where
  action : ∀ v, s.rawAction = some v → v.Kept room
  response : ∀ v, s.response = some v → v.Kept room

theorem Script.Readable.decode_encode {s : Script} {room : Nat} (hs : s.Readable room)
    {reading : Reading} (hroom : reading.room = some (room + 1)) {node : Node}
    (h : Shows s.encode node) : Script.decoder reading node = .ok s := by
  have hinside := Reading.room_inside hroom
  obtain ⟨rawAction, response⟩ := s
  have haction : Fills reading.inside slots ignore (Ui.optionalEntry "action_id" id rawAction)
      {} { rawAction } :=
    Fills.untyped hinside rfl hs.action rfl rfl
  have hresponse : Fills reading.inside slots ignore (Ui.optionalEntry "response" id response)
      { rawAction } { rawAction, response } :=
    Fills.untyped hinside rfl hs.response rfl rfl
  refine record_of_fills (by rw [hroom]; nofun) ?_ (haction.append hresponse) h
  have hnames : (names Script.slots).Nodup := by decide
  refine hnames.sublist ?_
  rw [List.map_append]
  exact (Ui.optionalEntry_keys "action_id" _ _).append (Ui.optionalEntry_keys "response" _ _)

theorem Script.Readable.encode_isWhole {s : Script} {room : Nat} (hs : s.Readable room) :
    s.encode.IsWhole := by
  refine Value.entriesWhole_iff.mpr (List.forall_mem_append.mpr ⟨?_, ?_⟩)
  · exact Ui.optionalEntry_isWhole fun v hv => (hs.action v hv).isWhole
  · exact Ui.optionalEntry_isWhole fun v hv => (hs.response v hv).isWhole

/-- Whatever was read as a script can be written and read again. -/
theorem Script.readable_of_decoded {s : Script} {room : Nat} {reading : Reading}
    (hroom : reading.room = some (room + 1)) {node : Node} (hwhole : node.IsWhole)
    (h : Script.decoder reading node = .ok s) : s.Readable room := by
  have hinside := Reading.room_inside hroom
  refine foldlM_put_invariant ?_ (record_ok (by decide) h) ⟨nofun, nofun⟩
  intro member hmember a b ha hput
  have hmember := hwhole.members hmember
  obtain ⟨slot, hslot, -, hfill⟩ | ⟨-, hignore⟩ := put_ok hput
  · simp only [slots, List.mem_cons, List.not_mem_nil, or_false] at hslot
    rcases hslot with rfl | rfl
    · obtain ⟨action, haction, rfl⟩ := ok_of_map hfill
      exact { ha with action := optional_any_kept hinside hmember haction }
    · obtain ⟨response, hresponse, rfl⟩ := ok_of_map hfill
      exact { ha with response := optional_any_kept hinside hmember hresponse }
  · obtain ⟨_, _, hb⟩ := ok_of_bind hignore
    exact Except.ok.inj hb ▸ ha

/-- The script is what its tree says, and has nothing where that is missing or null. -/
structure Script.WrittenIn (node : Node) (s : Script) : Prop where
  action : Option.Rel (fun item v => item.value none = .ok v)
    (node.given? ["action_id", "response"] "action_id") s.rawAction
  response : Option.Rel (fun item v => item.value none = .ok v)
    (node.given? ["action_id", "response"] "response") s.response

/-- A script has the entries that were written for it, and no others. -/
theorem Script.writtenIn_of_decoded {s : Script} {room : Nat} {reading : Reading}
    (hroom : reading.room = some (room + 1)) {node : Node}
    (h : Script.decoder reading node = .ok s) : s.WrittenIn node := by
  have hnames : (names Script.slots).Nodup := by decide
  have hput := record_ok hnames h
  have huntyped : ∀ item v, any reading.inside item = .ok v → item.value none = .ok v :=
    fun _ _ hv => (any_ok (Reading.room_inside hroom) hv).2.2
  refine ⟨rel_given_of_put hnames 0 (by decide) rfl (fun _ _ => rfl) huntyped
      (put_keeps ?_ ignore_keeps) rfl hput,
    rel_given_of_put hnames 1 (by decide) rfl (fun _ _ => rfl) huntyped
      (put_keeps ?_ ignore_keeps) rfl hput⟩
  all_goals
    intro slot hslot hne
    simp only [slots, List.mem_cons, List.not_mem_nil, or_false] at hslot
    rcases hslot with rfl | rfl
    all_goals first | exact absurd rfl hne | exact slot_keeps fun _ _ => rfl

theorem Graph.encode_isWhole {g : Graph} {room : Nat} (hg : ∀ s ∈ g.scripts, s.Readable room) :
    g.encode.IsWhole := by
  refine ⟨Value.allWhole_iff.mpr ?_, trivial⟩
  simp only [List.forall_mem_map]
  exact fun s hs => (hg s hs).encode_isWhole

/-- A graph of readable scripts is read back from whatever shows it. -/
theorem Graph.decode_encode {g : Graph} {room : Nat} (hg : ∀ s ∈ g.scripts, s.Readable room)
    {reading : Reading} (hroom : reading.room = some (room + 3)) {node : Node}
    (h : Shows g.encode node) : Graph.decoder reading node = .ok g := by
  have hinside := Reading.room_inside hroom
  have hscripts : Fills reading.inside slots ignore
      [("scripts", .array (g.scripts.map Script.encode))] {} g := by
    refine Fills.required rfl (fun _ => list_of_shows (by rw [hinside]; nofun) ?_) rfl
    exact fun s hs _ => (hg s hs).decode_encode (Reading.room_inside hinside)
  refine record_of_fills (by rw [hroom]; nofun) ?_ hscripts h
  exact List.pairwise_singleton _ _

theorem Graph.scripts_of_decoded {g : Graph} {reading : Reading} {node : Node}
    (h : Graph.decoder reading node = .ok g) :
    List.Forall₂ (fun item s => Script.decoder reading.inside.inside item = .ok s)
      (node.listed (names slots) "scripts") g.scripts := by
  refine forall₂_listed (by decide) ?_ (put_keeps ?_ ignore_keeps) rfl h
  · intro node a b hput
    obtain ⟨scripts, hscripts, rfl⟩ := ok_of_map hput
    exact hscripts
  · intro s hs hne
    obtain rfl := List.mem_singleton.mp hs
    exact absurd rfl hne

theorem Graph.readable_of_decoded {g : Graph} {room : Nat} {reading : Reading}
    (hroom : reading.room = some (room + 3)) {node : Node} (hwhole : node.IsWhole)
    (h : Graph.decoder reading node = .ok g) : ∀ s ∈ g.scripts, s.Readable room := by
  refine forall_of_decoded (Graph.scripts_of_decoded h) (fun item => hwhole.listed) ?_
  intro item s hitem hs
  exact Script.readable_of_decoded (Reading.room_inside (Reading.room_inside hroom)) hitem hs

end Relation

namespace Document

theorem parse_json_ok {α : Type} {decoder : Decoder α} {text : String} {result : α}
    (h : parse decoder .json text = .ok result) :
    decoder jsonReading (Json.read text).1 = .ok result := by
  rcases hread : Json.read text with ⟨node, trailing⟩
  rw [parse, decodeJson, hread] at h
  dsimp only at h
  cases hdecode : decoder jsonReading node with
  | error fault =>
      rw [hdecode] at h
      cases h
  | ok found =>
      rw [hdecode] at h
      cases trailing with
      | none => exact congrArg Except.ok (Except.ok.inj h)
      | some fault => cases h

theorem parse_json_iff {α : Type} {decoder : Decoder α} {text : String} {node : Node}
    (h : Json.read text = (node, none)) {result : α} :
    parse decoder .json text = .ok result ↔ decoder jsonReading node = .ok result := by
  rw [parse, decodeJson, h]
  dsimp only
  cases decoder jsonReading node with
  | error fault => exact iff_of_false nofun nofun
  | ok found =>
      constructor
      · intro hparse
        exact congrArg Except.ok (Except.ok.inj hparse)
      · intro hdecode
        exact congrArg Except.ok (Except.ok.inj hdecode)

/-- What decodes from all that shows a value is read from the value written out. -/
theorem parse_compact {α : Type} {decoder : Decoder α} {v : Value} {result : α}
    (hwhole : v.IsWhole) (h : ∀ node, Shows v node → decoder jsonReading node = .ok result) :
    parse decoder .json (Json.compact v) = .ok result := by
  obtain ⟨node, hshow, hread⟩ := Json.read_compact hwhole
  exact (parse_json_iff hread).mpr (h node hshow)

/-- The text of a graph that was read is read as the same graph. The graph holds what its first text
says: the page, the entries of the window with each size in its form, and the elements or scripts
that are listed, in order, each with its own fields and with all further ones, of one name the
last. -/
theorem written_graphs_are_read_back (text : String) (hwhole : Json.HasWholeNumbers text) :
    (∀ ui, parse Ui.Graph.decoder .json text = .ok ui →
      parse Ui.Graph.decoder .json (Json.compact ui.encode) = .ok ui ∧
      ((Json.read text).1.member? ["page", "window", "elements"] "page").elim
        (ui.page = Ui.defaultPage) (Shows (.text ui.page)) ∧
      Option.Rel Ui.WindowSpec.WrittenIn
        ((Json.read text).1.given? ["page", "window", "elements"] "window") ui.window ∧
      List.Forall₂ (fun node e =>
          Ui.Element.decoder jsonReading.inside.inside node = .ok e ∧ e.WrittenIn node)
        ((Json.read text).1.listed ["page", "window", "elements"] "elements") ui.elements) ∧
    (∀ relation, parse Relation.Graph.decoder .json text = .ok relation →
      parse Relation.Graph.decoder .json (Json.compact relation.encode) = .ok relation ∧
      List.Forall₂ (fun node s =>
          Relation.Script.decoder jsonReading.inside.inside node = .ok s ∧ s.WrittenIn node)
        ((Json.read text).1.listed ["scripts"] "scripts") relation.scripts) := by
  have htree := Json.read_isWhole hwhole
  -- Around what an element or a script keeps untyped lie three containers: the whole, its list and
  -- the element or script itself.
  have hroom : jsonReading.room = some (124 + 3) := rfl
  have hinside := Reading.room_inside (Reading.room_inside hroom)
  constructor
  · intro ui h
    have hnode := parse_json_ok h
    have hreadable := Ui.Graph.readable_of_decoded hroom htree hnode
    refine ⟨parse_compact (Ui.Graph.encode_isWhole hreadable) fun _ =>
      Ui.Graph.decode_encode hreadable hroom, Ui.Graph.page_of_decoded hnode,
      Ui.Graph.window_of_decoded hnode, ?_⟩
    exact (Ui.Graph.elements_of_decoded hnode).imp fun node e he =>
      ⟨he, Ui.Element.writtenIn_of_decoded hinside he⟩
  · intro relation h
    have hnode := parse_json_ok h
    have hreadable := Relation.Graph.readable_of_decoded hroom htree hnode
    refine ⟨parse_compact (Relation.Graph.encode_isWhole hreadable) fun _ =>
      Relation.Graph.decode_encode hreadable hroom, ?_⟩
    exact (Relation.Graph.scripts_of_decoded hnode).imp fun node s hs =>
      ⟨hs, Relation.Script.writtenIn_of_decoded hinside hs⟩

/-- A document that can be read as either graph. Its window is a list, one element has null and a
key given twice, and the scripts are a list and an object. -/
def mixedDocument : Value :=
  .object [
    ("window", .array [.text "T", .null, .number (.natural 640),
      .array [.number (.natural 3), .number (.natural 4)]]),
    ("elements", .array [
      .object [("type", .text "text"), ("value", .null), ("z", .null),
        ("a", .array [.number (.negative 1)]), ("a", .object [("k", .array [])])],
      .object [("action_id", .number (.natural 7)), ("kind", .null)]]),
    ("scripts", .array [
      .array [.text "go", .object [("kind", .text "x")]],
      .object [("response", .null), ("action_id", .text "stop")]])]

theorem written_graphs_are_read_back_mixed :
    ∃ ui relation,
      Json.HasWholeNumbers (Json.compact mixedDocument) ∧
      parse Ui.Graph.decoder .json (Json.compact mixedDocument) = .ok ui ∧
      ui.window = some { title := some "T", height := some 640, minSize := some (.pair 3 4) } ∧
      (ui.elements.map fun e => e.fields.map fun field => (field.1, field.2.isNull)) =
        [[("a", false), ("z", true)], []] ∧
      parse Ui.Graph.decoder .json (Json.compact ui.encode) = .ok ui ∧
      parse Relation.Graph.decoder .json (Json.compact mixedDocument) = .ok relation ∧
      relation.scripts.map Relation.Script.action? = [some "go", some "stop"] ∧
      parse Relation.Graph.decoder .json (Json.compact relation.encode) = .ok relation := by
  have hwhole : Json.HasWholeNumbers (Json.compact mixedDocument) := by
    rw [Json.HasWholeNumbers, Json.tokens_compact]
    decide +kernel
  have hui : ((parse Ui.Graph.decoder .json (Json.compact mixedDocument)).toOption.map fun ui =>
      (ui.window, ui.elements.map fun e => e.fields.map fun field => (field.1, field.2.isNull))) =
        some (some { title := some "T", height := some 640, minSize := some (.pair 3 4) },
          [[("a", false), ("z", true)], []]) := by
    rw [parse, decodeJson, Json.read, Json.tokens_compact]
    decide +kernel
  have hrelation : ((parse Relation.Graph.decoder .json (Json.compact mixedDocument)).toOption.map
      fun relation => relation.scripts.map Relation.Script.action?) =
        some [some "go", some "stop"] := by
    rw [parse, decodeJson, Json.read, Json.tokens_compact]
    decide +kernel
  obtain ⟨hpage, hscripts⟩ := written_graphs_are_read_back (Json.compact mixedDocument) hwhole
  cases hread : parse Ui.Graph.decoder .json (Json.compact mixedDocument) with
  | error fault =>
      rw [hread] at hui
      cases hui
  | ok ui =>
      rw [hread] at hui
      obtain ⟨hwindow, helements⟩ := Prod.mk.inj (Option.some.inj hui)
      cases hreadScripts : parse Relation.Graph.decoder .json (Json.compact mixedDocument) with
      | error fault =>
          rw [hreadScripts] at hrelation
          cases hrelation
      | ok relation =>
          rw [hreadScripts] at hrelation
          exact ⟨ui, relation, hwhole, rfl, hwindow, helements, (hpage ui hread).1, rfl,
            Option.some.inj hrelation, (hscripts relation hreadScripts).1⟩

end Document

end GioForge
