import GioForge.Data.Table
import GioForge.Text.Blank
import GioForge.Value

/-!
Responses of scripts. What a document says is first brought into one form, a kind with named fields,
and then turned into source text by the function registered for the kind.
-/

namespace GioForge

def defaultResponseKind : String := "show_text"

structure Response where
  kind : String
  fields : Fields := []
  deriving Inhabited

namespace Response

def withField (r : Response) (name : String) (value : Value) : Response :=
  { r with fields := r.fields.insert name value }

def text? (r : Response) (field : String) : Option String :=
  (r.fields.get? field).bind Value.text?

/-- The fields looked through for a free text, in this order. -/
def freeTextFields : List String := ["msg", "message", "text", "value"]

def freeText? (r : Response) : Option String :=
  freeTextFields.findSome? r.text?

def usableTag? (fields : Fields) (name : String) : Option String :=
  ((fields.get? name).bind Value.text?).filter fun tag => !Text.isBlankText tag

/-- The response a document means: a text is shown, and an object names its kind by one of two keys,
which are not among its fields. Nothing else is a response. -/
def ofValue? : Value → Option Response
  | .text message => some ((Response.mk defaultResponseKind []).withField "msg" (.text message))
  | .object entries =>
      let fields : Fields := entries
      let kind := (usableTag? fields "kind" <|> usableTag? fields "type").getD defaultResponseKind
      some ⟨kind, (fields.erase "kind").erase "type"⟩
  | _ => none

end Response

/-- Turns a response into source text, or into nothing if the response lacks what is needed. -/
abbrev Responder := Response → Option String

abbrev Responders := Table String Responder

end GioForge
