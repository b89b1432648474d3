import GioForge.Diagnostic
import GioForge.Handlers
import GioForge.Relation.Basic
import GioForge.Response.Message

/-!
From scripts to handlers. Scripts are taken in the order of the document. One that cannot be used is
reported and left out; of several for one action the last usable one counts, in the place of the
first.
-/

namespace GioForge

structure Resolution where
  handlers : Handlers := .empty
  diagnostics : List Diagnostic := []

namespace Resolution

def phase : String := "roll"

def warning (message place : String) : Diagnostic :=
  { severity := .warning, phase, message, location := some place }

/-- The source text of a response, if it has one, and the warning it deserves, if any. A kind that
nobody knows is reported, and its free text is shown if it has any. -/
def dispatch (responders : Responders) (response : Response) (action place : String) :
    Option String × Option Diagnostic :=
  match responders.get? response.kind with
  | some responder =>
      match responder response with
      | some text => (some text, none)
      | none =>
          (none, some (warning ("'" ++ response.kind ++ "' response for action '" ++ action ++
            "' is missing its payload") place))
  | none =>
      let start := "unknown response kind '" ++ response.kind ++ "' for action '" ++ action ++ "'"
      if response.freeText?.isSome then
        (Response.showText response, some (warning (start ++ "; showing its text") place))
      else (none, some (warning (start ++ " has no text to show") place))

/-- What a script comes to: the action with its source text, if it can be used, and the warning it
deserves, if any. -/
def outcome (responders : Responders) (script : Relation.Script) (place : String) :
    Option (String × String) × Option Diagnostic :=
  match script.action? with
  | none => (none, some (warning "script has no action_id and was skipped" place))
  | some action =>
      match script.response.bind Response.ofValue? with
      | none =>
          (none, some (warning ("response for action '" ++ action ++
            "' is not a string or a map") place))
      | some response =>
          match dispatch responders response action place with
          | (text, note) => (text.map fun t => (action, t), note)

def placeOf (index : Nat) : String :=
  "scripts[" ++ Text.decimalText index ++ "]"

def redefined (action place : String) : Diagnostic :=
  { severity := .info, phase,
    message := "action '" ++ action ++ "' is redefined; the later script wins",
    location := some place }

def step (responders : Responders) (r : Resolution) (script : Relation.Script) (index : Nat) :
    Resolution :=
  let place := placeOf index
  match outcome responders script place with
  | (none, note) => { r with diagnostics := r.diagnostics ++ note.toList }
  | (some (action, text), note) =>
      let again := if r.handlers.contains action then [redefined action place] else []
      { handlers := r.handlers.insert action text
        diagnostics := r.diagnostics ++ note.toList ++ again }

def ofRelation (responders : Responders) (relation : Relation.Graph) : Resolution :=
  relation.scripts.zipIdx.foldl (fun r script => step responders r script.1 script.2) {}

end Resolution

/-- The handlers of all scripts, with the responders known from the start. -/
def resolveActions (relation : Relation.Graph) : Handlers :=
  (Resolution.ofRelation Responders.builtin relation).handlers

end GioForge
