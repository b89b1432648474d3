import GioForge.Proofs.Json.Reading

/-!
Values spread over several lines. White space between tokens is passed over, so a value that
is indented has the same tokens as one in a single line and is read back all the same, also
with a line feed behind it.
-/

namespace GioForge.Json

open Document

theorem Lexes.space {c : Char} {cs : List Char} {found : List Lexeme} (hspace : isSpace c = true)
    (h : Lexes cs found) : Lexes (c :: cs) found := by
  intro size index rest hrest
  obtain ⟨tokens, after, hfound, htokens⟩ := h size (index + 1) rest hrest
  refine ⟨tokens, after, hfound, ?_⟩
  rw [List.cons_append, tokensFrom, hspace, ← htokens]
  rfl

theorem Lexes.freshLine {cs : List Char} {found : List Lexeme} (level : Nat)
    (h : Lexes cs found) : Lexes (freshLine level ++ cs) found := by
  refine Lexes.space rfl ?_
  generalize 2 * level = blanks
  induction blanks with
  | zero => exact h
  | succ n ih => exact ih.space rfl

theorem endsNumeral_freshLine (level : Nat) (cs rest : List Char) :
    EndsNumeral (freshLine level ++ cs ++ rest) :=
  endsNumeral_cons (by decide) _

mutual

/-- Written over several lines a value has the lexemes it has in one. -/
theorem lexes_pretty : ∀ (level : Nat) (v : Value), v.IsWhole →
    Lexes (prettyChars level v) (lexemes v)
  | _, .null, _ => lexes_null
  | _, .bool true, _ => lexes_bool true
  | _, .bool false, _ => lexes_bool false
  | _, .number _, h => lexes_number h
  | _, .text s, _ => lexes_string s
  | _, .array [], _ =>
      (lexes_nil.mark rfl rfl fun _ _ => rfl).mark rfl rfl fun _ _ => rfl
  | level, .array (item :: rest), h => by
      refine Lexes.mark rfl rfl (fun _ _ => rfl) ?_
      rw [List.append_assoc]
      exact (lexes_prettyItems (level + 1) (item :: rest) h).append
        ((lexes_nil.mark rfl rfl fun _ _ => rfl).freshLine level) (endsNumeral_freshLine level _)
  | _, .object [], _ =>
      (lexes_nil.mark rfl rfl fun _ _ => rfl).mark rfl rfl fun _ _ => rfl
  | level, .object (entry :: rest), h => by
      refine Lexes.mark rfl rfl (fun _ _ => rfl) ?_
      rw [List.append_assoc]
      exact (lexes_prettyEntries (level + 1) (entry :: rest) h).append
        ((lexes_nil.mark rfl rfl fun _ _ => rfl).freshLine level) (endsNumeral_freshLine level _)

theorem lexes_prettyItems : ∀ (level : Nat) (items : List Value), Value.AllWhole items →
    Lexes (prettyItems level items) (itemLexemes items)
  | _, [], _ => lexes_nil
  | level, [item], h => (lexes_pretty level item h.1).freshLine level
  | level, item :: next :: rest, h => by
      refine Lexes.freshLine level ?_
      refine (lexes_pretty level item h.1).append ?_ (endsNumeral_cons (by decide))
      exact (lexes_prettyItems level (next :: rest) h.2).mark rfl rfl fun _ _ => rfl

theorem lexes_prettyEntries : ∀ (level : Nat) (entries : List (String × Value)),
    Value.EntriesWhole entries → Lexes (prettyEntries level entries) (entryLexemes entries)
  | _, [], _ => lexes_nil
  | level, [(key, value)], h => by
      refine Lexes.freshLine level ?_
      refine (lexes_string key).append ?_ (endsNumeral_cons (by decide))
      exact ((lexes_pretty level value h.1).space rfl).mark rfl rfl fun _ _ => rfl
  | level, (key, value) :: next :: rest, h => by
      refine Lexes.freshLine level ?_
      refine (lexes_string key).append ?_ (endsNumeral_cons (by decide))
      refine Lexes.mark rfl rfl (fun _ _ => rfl) (Lexes.space rfl ?_)
      refine (lexes_pretty level value h.1).append ?_ (endsNumeral_cons (by decide))
      exact (lexes_prettyEntries level (next :: rest) h.2).mark rfl rfl fun _ _ => rfl

end

/-- Whatever is written over several lines is read as something that shows it, without a fault.
-/
theorem read_pretty {v : Value} (h : v.IsWhole) :
    ∃ node, Shows v node ∧ read (pretty v) = (node, none) := by
  apply read_of_lexes
  rw [pretty, String.toList_ofList]
  exact lexes_pretty 0 v h

/-- A printed value is read back from a line of its own. -/
theorem read_pretty_line {v : Value} (h : v.IsWhole) :
    ∃ node, Shows v node ∧ read (pretty v ++ "\n") = (node, none) := by
  have hfeed : Lexes ['\n'] [] := lexes_nil.space rfl
  have hline := (lexes_pretty 0 v h).append hfeed (endsNumeral_cons (by decide))
  rw [List.append_nil] at hline
  apply read_of_lexes
  rw [String.toList_append, pretty, String.toList_ofList]
  exact hline

end GioForge.Json
