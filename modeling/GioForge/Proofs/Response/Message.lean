import GioForge.Code.Fragment
import GioForge.Proofs.Go.Interpreted
import GioForge.Proofs.Resolution.LastWins

/-!
The messages of scripts. Every response known from the start sets the message that
the program shows, so the handler of an action is one assignment, and that assignment
is one line of code: escaping leaves no line end in it, and it neither begins nor ends
with white space.
-/

namespace GioForge

namespace Response

/-- The message a response sets, if it sets one. A response of a kind that nobody
knows shows its free text. -/
def message? (r : Response) : Option String :=
  if r.kind = "navigate" then
    (r.text? "page_id" <|> r.text? "page" <|> r.freeText?).map ("navigate:" ++ ·)
  else if r.kind = "show_text" ∨ r.kind = "pop_msg" then some (r.freeText?.getD "")
  else r.freeText?

end Response

namespace Relation

/-- The action of a script and the message it sets, if the script can be used. -/
def Script.message? (s : Script) : Option (String × String) := do
  let action ← s.action?
  let response ← s.response.bind Response.ofValue?
  let message ← response.message?
  return (action, message)

/-- The message of the last usable script for an action. -/
def Graph.lastMessage? (relation : Graph) (action : String) : Option String :=
  ((relation.scripts.filterMap Script.message?).filter fun pair => pair.1 = action).getLast?.map
    Prod.snd

end Relation

theorem Responders.get?_builtin (kind : String) :
    builtin.get? kind =
      if kind = "navigate" then some Response.navigate
      else if kind = "pop_msg" then some Response.popMessage
      else if kind = "show_text" then some Response.showText
      else none := by
  simp [builtin, Table.ofList, Table.get?_insert, Table.get?_empty]

namespace Resolution

/-- With the responses known from the start, the text of a response assigns its
message. -/
theorem fragment?_builtin (r : Response) :
    fragment? Responders.builtin r = r.message?.map Response.setMessage := by
  unfold fragment? Response.message?
  rw [Responders.get?_builtin]
  by_cases hnavigate : r.kind = "navigate"
  · simp [hnavigate, Response.navigate, Function.comp_def]
  by_cases hpop : r.kind = "pop_msg"
  · simp [hpop, Response.popMessage, Response.showText]
  by_cases hshow : r.kind = "show_text"
  · simp [hshow, Response.showText]
  · simp [hnavigate, hpop, hshow]

/-- The responders of the library all set a message. -/
theorem resolved?_builtin (s : Relation.Script) :
    resolved? Responders.builtin s =
      s.message?.map fun pair => (pair.1, Response.setMessage pair.2) := by
  unfold resolved? Relation.Script.message?
  cases s.action? with
  | none => rfl
  | some action =>
      cases hresponse : s.response.bind Response.ofValue? with
      | none => rfl
      | some response =>
          simp only [Option.bind_eq_bind, Option.bind_some, fragment?_builtin]
          cases response.message? <;> rfl

end Resolution

/-- The handler of an action assigns the message of the last usable script for it. -/
theorem get?_resolveActions (relation : Relation.Graph) (action : String) :
    (resolveActions relation).get? action =
      (relation.lastMessage? action).map Response.setMessage := by
  have hpairs : Resolution.resolving Responders.builtin relation =
      (relation.scripts.filterMap Relation.Script.message?).map fun pair =>
        (pair.1, Response.setMessage pair.2) := by
    rw [Resolution.resolving, List.map_filterMap]
    exact congrArg (List.filterMap · relation.scripts) (funext Resolution.resolved?_builtin)
  rw [resolveActions, Resolution.handlers_ofRelation, Table.get?_ofList, hpairs,
    List.filter_map, List.getLast?_map, Option.map_map, Relation.Graph.lastMessage?,
    Option.map_map]
  rfl

theorem Text.lines_of_no_line_feed (cs : List Char) (hne : cs ≠ []) (hfeed : '\n' ∉ cs) :
    Text.lines cs = [cs] := by
  induction cs with
  | nil => exact absurd rfl hne
  | cons c rest ih =>
      simp only [List.mem_cons, not_or] at hfeed
      have hc : c = '\n' → False := fun h => hfeed.1 h.symm
      have hpair : ∀ tail, c = '\r' → rest = '\n' :: tail → False := by
        intro tail _ htail
        exact hfeed.2 (by simp [htail])
      rw [Text.lines.eq_4 c rest hc hpair]
      cases rest with
      | nil => rfl
      | cons d more => rw [ih (by simp) hfeed.2]

/-- A text of one line that begins and ends with neither indentation nor white space
stays as it is. -/
theorem Code.Fragment.ofText_of_line {text : String} (first last : Char)
    (hfeed : '\n' ∉ text.toList) (hfirst : text.toList.head? = some first)
    (hindent : isIndent first = false) (hlast : text.toList.getLast? = some last)
    (hblank : Text.isBlank last = false) : ofText text = [.line text] := by
  have hne : text.toList ≠ [] := by
    intro h
    simp [h] at hfirst
  have htrim : Text.trimEnd text.toList = text.toList := by
    obtain ⟨init, hinit⟩ := List.getLast?_eq_some_iff.mp hlast
    simp [Text.trimEnd, hinit, hblank]
  have hmargin : text.toList.takeWhile isIndent = [] := by
    obtain ⟨rest, hrest⟩ := List.head?_eq_some_iff.mp hfirst
    simp [hrest, hindent]
  have hlines : (Text.lines text.toList).map Text.trimEnd = [text.toList] := by
    rw [Text.lines_of_no_line_feed _ hne hfeed, List.map_singleton, htrim]
  have hempty : ¬ text = "" := fun h => hne (by simp [h])
  simp [ofText, hlines, dropOuterEmpty, sharedIndent, hmargin, hempty]

/-- The assignment of a message is one line of code. -/
theorem Response.ofText_setMessage (message : String) :
    Code.Fragment.ofText (setMessage message) = [.line (setMessage message)] := by
  have hchars : (setMessage message).toList =
      ("actionMessage = \"".toList ++ (Go.escape message).toList) ++ ['"'] := by
    simp [setMessage, messageVariable, Go.quote]
  refine Code.Fragment.ofText_of_line 'a' '"' ?_ ?_ rfl ?_ rfl
  · intro hfeed
    rw [hchars] at hfeed
    rcases List.mem_append.mp hfeed with hfeed | hfeed
    · rcases List.mem_append.mp hfeed with hfeed | hfeed
      · exact absurd hfeed (by decide)
      · exact absurd (Go.not_isControl_of_mem_escape hfeed) (by decide)
    · exact absurd hfeed (by decide)
  · rw [hchars]
    rfl
  · rw [hchars, List.getLast?_concat]

end GioForge
