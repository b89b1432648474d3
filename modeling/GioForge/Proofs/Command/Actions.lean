import GioForge.Command.Run
import GioForge.Proofs.Document.RoundTrip
import GioForge.Proofs.Json.Pretty
import GioForge.Proofs.Resolution.Reports
import Mathlib.Data.List.Nodup

/-!
Printing handlers for other programs. The regular output is one JSON object and nothing
else, and reading it gives the handlers with their order: the source text of a handler has
its own escapes, and these are escaped once more and come back as they were. Warnings go to
the other stream, each once, and notes that a script replaced another are not printed at all.
-/

namespace GioForge

namespace Handlers

open Document Decoder

/-- Handlers as they are printed: an object of texts. A key that comes again replaces the text and
keeps its place. -/
def decoder : Decoder Handlers :=
  Decoder.object .empty [] fun reading name node handlers => do
    return handlers.insert name (← Decoder.text reading node)

theorem value_isWhole (handlers : Handlers) : (Handlers.value handlers).IsWhole := by
  have hentries : ∀ entries : List (String × String),
      Value.EntriesWhole (entries.map fun entry => (entry.1, .text entry.2)) := by
    intro entries
    induction entries with
    | nil => trivial
    | cons entry rest ih => exact ⟨trivial, ih⟩
  exact hentries handlers.entries

/-- Entries that are texts are inserted one after the other. -/
theorem fillEntries_texts (reading : Reading) (seen : List String) (pairs : List (String × String))
    {nodes : List (Except Fault String × Node)} (handlers : Handlers)
    (h : ShowEntries (pairs.map fun pair => (pair.1, .text pair.2)) nodes) :
    fillEntries reading [] (fun reading name node handlers => do
        return Table.insert handlers name (← Decoder.text reading node)) seen handlers nodes =
      .ok (pairs.foldl (fun table pair => table.insert pair.1 pair.2) handlers) := by
  induction pairs generalizing nodes handlers with
  | nil =>
      obtain rfl : nodes = [] := h
      rfl
  | cons pair rest ih =>
      obtain ⟨node, more, rfl, hnode, hmore⟩ := h
      cases node with
      | text mark s =>
          obtain rfl : s = .ok pair.2 := hnode
          exact ih (handlers.insert pair.1 pair.2) hmore
      | _ => exact hnode.elim

/-- Whatever shows the answer is read as the handlers it was made from, in their order. -/
theorem decode_value {handlers : Handlers} {reading : Reading} (hroom : reading.room ≠ some 0)
    {node : Node} (h : Shows (Handlers.value handlers) node) :
    decoder reading node = .ok handlers := by
  cases node with
  | object mark nodes ending =>
      obtain ⟨hentries, rfl⟩ := h
      unfold decoder Decoder.object
      dsimp only
      rw [Reading.enter_eq_ok.mpr ⟨hroom, rfl⟩]
      change (fillEntries _ _ _ _ _ _ >>= _) = _
      rw [fillEntries_texts _ _ _ _ hentries]
      exact congrArg Except.ok handlers.ofList_entries
  | _ => exact h.elim

/-- The answer, written over several lines, is read as the handlers it was made from. -/
theorem parse_pretty (handlers : Handlers) :
    parse decoder .json (Json.pretty (Handlers.value handlers)) = .ok handlers := by
  obtain ⟨node, hshow, hread⟩ := Json.read_pretty handlers.value_isWhole
  exact (parse_json_iff hread).mpr (decode_value (by decide) hshow)

theorem parse_pretty_line (handlers : Handlers) :
    parse decoder .json (Json.pretty (Handlers.value handlers) ++ "\n") = .ok handlers := by
  obtain ⟨node, hshow, hread⟩ := Json.read_pretty_line handlers.value_isWhole
  exact (parse_json_iff hread).mpr (decode_value (by decide) hshow)

end Handlers

namespace Resolution

/-- The line of a finding ends in the index of its script. -/
theorem reverse_display {d : Diagnostic} {i : Nat} (h : d.location = some (placeOf i)) :
    ∃ rest, d.display.toList.reverse =
      ')' :: ']' :: ((Text.decimal i).reverse ++ '[' :: rest) := by
  refine ⟨(d.severity.word ++ ": " ++ d.message ++ " (at scripts").toList.reverse, ?_⟩
  unfold Diagnostic.display Diagnostic.body
  rw [h]
  simp [placeOf, Text.decimalText]

/-- Two findings about scripts that are shown alike are about the same script. -/
theorem index_eq_of_display {d e : Diagnostic} {i j : Nat} (hd : d.location = some (placeOf i))
    (he : e.location = some (placeOf j)) (h : d.display = e.display) : i = j := by
  have htake : ∀ (n : Nat) (rest : List Char),
      ((Text.decimal n).reverse ++ '[' :: rest).takeWhile Text.isDigit =
        (Text.decimal n).reverse := by
    intro n rest
    rw [List.takeWhile_append_of_pos fun c hc =>
      Go.isDigit_of_mem_decimal (List.mem_reverse.mp hc)]
    rw [List.takeWhile_cons_of_neg (by decide), List.append_nil]
  obtain ⟨rest, hrest⟩ := reverse_display hd
  obtain ⟨more, hmore⟩ := reverse_display he
  rw [h, hmore] at hrest
  injection hrest with _ hrest
  injection hrest with _ hrest
  have hdigits := congrArg (List.takeWhile Text.isDigit) hrest
  rw [htake, htake, List.reverse_inj] at hdigits
  exact Text.decimalText_injective (congrArg String.ofList hdigits.symm)

/-- No two warnings about scripts read the same. -/
theorem nodup_display_warnings (responders : Responders) (scripts : List Relation.Script) :
    (((ofRelation responders ⟨scripts⟩).diagnostics.filter fun d => d.severity = .warning).map
      Diagnostic.display).Nodup := by
  induction scripts using List.reverseRecOn with
  | nil => exact List.nodup_nil
  | append_singleton before script ih =>
      rw [diagnostics_concat, List.filter_append, filter_warning_notes, List.map_append,
        List.nodup_append]
      refine ⟨ih, ?_, ?_⟩
      · cases (outcome responders script (placeOf before.length)).2 with
        | none => exact List.nodup_nil
        | some note => exact List.pairwise_singleton _ _
      · intro line hline other hother heq
        obtain ⟨d, hd, rfl⟩ := List.mem_map.mp hline
        obtain ⟨e, he, rfl⟩ := List.mem_map.mp hother
        obtain ⟨i, hi, hlocation⟩ := (mem_diagnostics (List.mem_filter.mp hd).1).2.2
        have hown := (note_of_outcome (Option.mem_toList.mp he)).2.1
        have hindex := index_eq_of_display hlocation hown heq
        omega

end Resolution

namespace Command

open Document

/-- Among warnings and notes of no consequence only the warnings are printed. -/
theorem diagnosticLines_warnings {diagnostics : List Diagnostic}
    (h : ∀ d ∈ diagnostics, d.severity = .warning ∨ d.severity = .info) :
    diagnosticLines (diagnostics.filter fun d => d.severity ≠ .info) =
      (diagnostics.filter fun d => d.severity = .warning).map fun d => ⟨.err, d.display⟩ := by
  have herrors : (diagnostics.filter fun d => d.severity ≠ .info).filter
      (fun d => d.severity = .error) = [] := by
    rw [List.filter_eq_nil_iff]
    intro d hd
    rcases h d (List.mem_filter.mp hd).1 with hwarning | hinfo
    · simp [hwarning]
    · simp [hinfo]
  have hwarnings : (diagnostics.filter fun d => d.severity ≠ .info).filter
      (fun d => d.severity = .warning) = diagnostics.filter fun d => d.severity = .warning := by
    rw [List.filter_filter]
    refine List.filter_congr fun d _ => ?_
    cases d.severity <;> rfl
  have hinfos : (diagnostics.filter fun d => d.severity ≠ .info).filter
      (fun d => d.severity = .info) = [] := by
    rw [List.filter_eq_nil_iff]
    intro d hd
    simpa using (List.mem_filter.mp hd).2
  unfold diagnosticLines
  simp only [List.flatMap_cons, List.flatMap_nil, herrors, hwarnings, hinfos, List.map_nil,
    List.nil_append, List.append_nil, streamOf]

/-- The command writes a line for each warning and then the handlers. -/
theorem actions_eq (relation : Relation.Graph) :
    actions relation =
      ((Resolution.ofRelation Responders.builtin relation).diagnostics.filter
        fun d => d.severity = .warning).map (fun d => ⟨.err, d.display⟩) ++
      [out (Json.pretty (Handlers.value (resolveActions relation)))] := by
  unfold actions
  dsimp only
  rw [diagnosticLines_warnings fun d hd => (Resolution.mem_diagnostics hd).1]
  rfl

/-- What is printed to the stream for problems. -/
theorem errors_of_actions (relation : Relation.Graph) :
    ((actions relation).filter fun l => l.stream = .err).map Line.text =
      ((Resolution.ofRelation Responders.builtin relation).diagnostics.filter
        fun d => d.severity = .warning).map Diagnostic.display := by
  rw [actions_eq, List.filter_append, List.filter_map, List.map_append, List.map_map]
  simp [out, Function.comp_def]

/-- What is printed to the other stream. -/
theorem output_of_actions (relation : Relation.Graph) :
    ((actions relation).filter fun l => l.stream = .out) =
      [out (Json.pretty (Handlers.value (resolveActions relation)))] := by
  rw [actions_eq, List.filter_append, List.filter_map]
  simp [out, Function.comp_def]

/-- What `actions` prints is for machines to read. For any scripts that can be loaded the regular
output is the text of one JSON object and a line feed, and reading it gives the handlers, each
action once in the order of first definition. Every warning is printed to the other stream exactly
once, and nothing else is printed. -/
theorem actions_are_machine_readable (tree : FileTree) (sources : Sources)
    (doc : Loaded Relation.Graph) (hload : loadScripts sources tree = .ok doc) :
    ∃ lines object, Request.run tree (.actions sources) = (tree, .success lines) ∧
      lines.filter (fun l => l.stream = .out) = [out object] ∧
      streamText .out lines = object ++ "\n" ∧
      parse Handlers.decoder .json object = .ok (resolveActions doc.value) ∧
      parse Handlers.decoder .json (streamText .out lines) = .ok (resolveActions doc.value) ∧
      (resolveActions doc.value).keys =
        ((Resolution.resolving Responders.builtin doc.value).map Prod.fst).eraseDups ∧
      (lines.filter fun l => l.stream = .err).map Line.text =
        ((Resolution.ofRelation Responders.builtin doc.value).diagnostics.filter
          fun d => d.severity = .warning).map Diagnostic.display ∧
      ∀ d ∈ (Resolution.ofRelation Responders.builtin doc.value).diagnostics,
        d.severity = .warning →
          ((lines.filter fun l => l.stream = .err).map Line.text).count d.display = 1 := by
  have hrun : Request.run tree (.actions sources) = (tree, .success (actions doc.value)) := by
    dsimp only [Request.run]
    rw [hload]
  have houtput : streamText .out (actions doc.value) =
      Json.pretty (Handlers.value (resolveActions doc.value)) ++ "\n" := by
    unfold streamText
    rw [output_of_actions]
    simp [out]
  refine ⟨_, _, hrun, output_of_actions doc.value, houtput, Handlers.parse_pretty _, ?_, ?_,
    errors_of_actions doc.value, ?_⟩
  · rw [houtput]
    exact Handlers.parse_pretty_line _
  · unfold resolveActions
    rw [Resolution.handlers_ofRelation, Table.keys_ofList]
  · intro d hd hwarning
    rw [errors_of_actions]
    refine List.count_eq_one_of_mem (Resolution.nodup_display_warnings _ _) ?_
    exact List.mem_map.mpr ⟨d, List.mem_filter.mpr ⟨hd, decide_eq_true hwarning⟩, rfl⟩

/-- Scripts of which one is skipped, one is of a kind that is not known and one replaces another. -/
def mixedScripts : String :=
  Json.compact (.object [("scripts", .array [
    .object [("action_id", .text "go"), ("response", .text "say \"hi\"\n")],
    .object [("response", .text "lost")],
    .object [("action_id", .text "stop"),
      ("response", .object [("kind", .text "open"), ("text", .text "bye")])],
    .object [("action_id", .text "go"), ("response", .text "\\")]])])

def diskWith (content : String) : FileTree :=
  ({} : FileTree).plant ["r.json"] (.file (.text content))

theorem actions_are_machine_readable_with_findings :
    ∃ doc lines,
      loadScripts { relation := some ⟨"r.json"⟩ } (diskWith mixedScripts) = .ok doc ∧
      Request.run (diskWith mixedScripts) (.actions { relation := some ⟨"r.json"⟩ }) =
        (diskWith mixedScripts, .success lines) ∧
      parse Handlers.decoder .json (streamText .out lines) = .ok (resolveActions doc.value) ∧
      (resolveActions doc.value).keys = ["go", "stop"] ∧
      (lines.filter fun l => l.stream = .err).map Line.text =
        ["warning: script has no action_id and was skipped (at scripts[1])",
          "warning: unknown response kind 'open' for action 'stop'; showing its text " ++
            "(at scripts[2])"] := by
  have hformat : Format.ofPath? ⟨"r.json"⟩ = some .json := by decide +kernel
  have hfile : (diskWith mixedScripts).readText? ⟨"r.json"⟩ = some mixedScripts := by
    generalize mixedScripts = content
    rfl
  have hread : (parse Relation.Graph.decoder .json mixedScripts).toOption.map
      (fun graph => ((resolveActions graph).keys,
        ((Resolution.ofRelation Responders.builtin graph).diagnostics.filter
          fun d => d.severity = .warning).map Diagnostic.display)) =
      some (["go", "stop"],
        ["warning: script has no action_id and was skipped (at scripts[1])",
          "warning: unknown response kind 'open' for action 'stop'; showing its text " ++
            "(at scripts[2])"]) := by
    rw [parse, decodeJson, Json.read, mixedScripts, Json.tokens_compact]
    decide +kernel
  obtain ⟨graph, hgraph, hfound⟩ := Option.map_eq_some_iff.mp hread
  rw [toOption_eq_some_iff] at hgraph
  obtain ⟨hkeys, hwarnings⟩ := Prod.mk.inj hfound
  have hload : loadScripts { relation := some ⟨"r.json"⟩ } (diskWith mixedScripts) =
      .ok ⟨⟨"r.json"⟩, mixedScripts, graph⟩ := by
    have hpath : ∀ tree, loadScripts { relation := some ⟨"r.json"⟩ } tree =
        load Relation.Graph.decoder tree ⟨"r.json"⟩ := fun _ => rfl
    rw [hpath, load, hformat, hfile]
    dsimp only
    rw [hgraph]
    rfl
  obtain ⟨lines, object, hrun, _, _, _, hparse, _, herrors, _⟩ :=
    actions_are_machine_readable (diskWith mixedScripts) { relation := some ⟨"r.json"⟩ } _ hload
  exact ⟨_, lines, hload, hrun, hparse, hkeys, herrors.trans hwarnings⟩

end Command

end GioForge
