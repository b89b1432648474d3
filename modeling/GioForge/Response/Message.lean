import GioForge.Go.Literal
import GioForge.Response.Basic

/-!
The responses that are known from the start. All of them set the message that the program shows
below its elements.
-/

namespace GioForge

def messageVariable : String := "actionMessage"

namespace Response

def setMessage (message : String) : String :=
  messageVariable ++ " = " ++ Go.quote message

def showText : Responder := fun r =>
  some (setMessage (r.freeText?.getD ""))

/-- Notices are shown in the place of other texts. -/
def popMessage : Responder := showText

/-- Reports the page to go to. A program has one page, so going there is left at that. -/
def navigate : Responder := fun r =>
  (r.text? "page_id" <|> r.text? "page" <|> r.freeText?).map fun target =>
    setMessage ("navigate:" ++ target)

end Response

def Responders.builtin : Responders :=
  Table.ofList [("show_text", Response.showText), ("pop_msg", Response.popMessage),
    ("navigate", Response.navigate)]

end GioForge
